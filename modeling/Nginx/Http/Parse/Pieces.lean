import Nginx.Http.Parse.HeaderLine
import Nginx.Http.Parse.StatusLine

namespace Nginx.HttpParse

open Resumable (contents pieces)

-- A return from inside of the loop is never about the version: that one is made behind done.
def LineTurn.Inside : LineTurn → Prop
  | .fail rc _ => rc ≠ .invalid09Method
  | _ => True

theorem LineTurn.Inside.ite {c : Prop} [Decidable c] {t t' : LineTurn} (h : t.Inside) (h' : t'.Inside) :
    (if c then t else t').Inside := by
  split
  · exact h
  · exact h'

theorem expect_inside (r : Request) (ch want : UInt8) (state : LineState) : (expect r ch want state).Inside :=
  .ite trivial LineError.noConfusion

theorem readSpaces_inside (r : Request) (p : Nat) (ch : UInt8) {other : LineTurn} (h : other.Inside) :
    (readSpaces r p ch other).Inside :=
  .ite trivial (.ite trivial (.ite trivial (.ite trivial h)))

theorem readUriEnd_inside (r : Request) (p : Nat) (ch : UInt8) (spaces : LineState) {other : LineTurn}
    (h : other.Inside) : (readUriEnd r p ch spaces other).Inside :=
  .ite trivial (.ite trivial (.ite trivial h))

theorem lineTurn_inside (buf : Nat → UInt8) (r : Request) (p : Nat) : (lineTurn buf r p).Inside := by
  unfold lineTurn
  dsimp only
  split <;> repeat' first
    | exact trivial
    | exact LineError.noConfusion
    | apply expect_inside
    | apply readSpaces_inside
    | apply readUriEnd_inside
    | apply LineTurn.Inside.ite

-- The loop of ngx_http_parse_request_line as a machine that can be stopped after any byte
inductive LineStop where
  | done (r : Request)
  | fail (rc : LineError) (hrc : rc ≠ .invalid09Method) (r : Request)

def LineTurn.resume (t : LineTurn) (h : t.Inside) : Resumable.Turn Request LineStop :=
  match t with
  | .next r => .next r
  | .done r => .stop (.done r)
  | .fail rc r => .stop (.fail rc h r)

def resumeLine (buf : Nat → UInt8) (p : Nat) (r : Request) : Resumable.Turn Request LineStop :=
  (lineTurn buf r p).resume (lineTurn_inside buf r p)

def lineAnswer (pos : Nat) (found : Request) (p : Nat) : LineStop → LineRc × Nat × Request
  | .done r =>
      let (rc, r) := lineDone r p
      (rc, p + 1, r)
  | .fail rc _ r => (.error rc, pos, { r with state := found.state })

theorem lineLoop_eq (buf : Nat → UInt8) (pos n p : Nat) (found r : Request) :
    lineLoop buf pos found.state n p r =
      Resumable.outcome lineAnswer .again pos (p + n) found
        (Resumable.scan (resumeLine buf) n p r) := by
  induction n generalizing p r with
  | zero => rfl
  | succ n ih =>
      rw [lineLoop, Resumable.scan, resumeLine]
      generalize lineTurn_inside buf r p = hinside
      generalize lineTurn buf r p = turn at hinside
      cases turn with
      | next r =>
          have hrest := ih (p + 1) r
          rw [Nat.add_assoc, Nat.add_comm 1 n] at hrest
          exact hrest
      | done r => rfl
      | fail rc r => rfl

theorem parseRequestLine_eq (buf : Nat → UInt8) (pos last : Nat) (r : Request) :
    parseRequestLine buf pos last r =
      Resumable.call resumeLine lineAnswer .again buf pos last r :=
  lineLoop_eq buf pos (last - pos) pos r r

theorem slice_congr {buf buf' : Nat → UInt8} {first last : Nat} (h : ∀ i < last, buf i = buf' i) :
    slice buf first last = slice buf' first last := by
  unfold slice
  apply List.map_congr_left
  intro i hi
  rw [List.mem_range] at hi
  exact h _ (by omega)

theorem resumeLine_local : Resumable.Local resumeLine := by
  intro buf buf' p r h
  have hch := h p (Nat.le_refl p)
  have hslice := @slice_congr buf buf' (r.requestStart.getD 0) p fun i hi => h i (Nat.le_of_lt hi)
  have hturn : lineTurn buf r p = lineTurn buf' r p := by simp only [lineTurn, hch, hslice]
  simp only [resumeLine, hturn]

theorem headerTurn_local (allowUnderscores : Bool) : Resumable.Local (headerTurn allowUnderscores) := by
  intro buf buf' p r h
  have hch := h p (Nat.le_refl p)
  have hslice := @slice_congr buf buf' (r.headerNameStart.getD 0) p fun i hi => h i (Nat.le_of_lt hi)
  have hstatus : isStatusLine buf r p = isStatusLine buf' r p := by rw [isStatusLine, isStatusLine, hslice]
  simp only [headerTurn, hch, hstatus]

theorem statusTurn_local : Resumable.Local statusTurn := by
  intro buf buf' p r h
  have hch := h p (Nat.le_refl p)
  simp only [statusTurn, hch]

theorem lineAnswer_again (pos : Nat) (found : Request) (p : Nat) (stop : LineStop) :
    (lineAnswer pos found p stop).1 ≠ .again := by
  cases stop with
  | done r =>
      show (lineDone r p).1 ≠ .again
      unfold lineDone
      dsimp only
      split <;> exact LineRc.noConfusion
  | fail rc hrc r => exact LineRc.noConfusion

theorem headerAnswer_again (pos : Nat) (found : HeaderRequest) (p : Nat) (stop : HeaderStop) :
    (headerAnswer pos found p stop).1 ≠ .again := by
  cases stop <;> exact HeaderRc.noConfusion

theorem statusAnswer_again (pos : Nat) (found : Status) (p : Nat) (stop : StatusStop) :
    (statusAnswer pos found p stop).1 ≠ .again := by
  cases stop <;> exact StatusRc.noConfusion

-- Where the answering call has begun shows only after a return from inside of the loop.
theorem lineAnswer_found (pos pos' : Nat) (found found' : Request) (p : Nat) (stop : LineStop) :
    let one := lineAnswer pos found p stop
    let many := lineAnswer pos' found' p stop
    many.1 = one.1 ∧ { many.2.2 with state := one.2.2.state } = one.2.2 ∧
      (one.1 ≠ .error .invalidMethod → one.1 ≠ .error .invalidRequest → many.2 = one.2) := by
  cases stop with
  | done r => exact ⟨rfl, rfl, fun _ _ => rfl⟩
  | fail rc hrc r =>
      refine ⟨rfl, rfl, ?_⟩
      intro hmethod hrequest
      cases rc with
      | invalidMethod => exact absurd rfl hmethod
      | invalidRequest => exact absurd rfl hrequest
      | invalid09Method => exact absurd rfl hrc

theorem headerAnswer_found (pos pos' : Nat) (found found' : HeaderRequest) (p : Nat) (stop : HeaderStop) :
    let one := headerAnswer pos found p stop
    let many := headerAnswer pos' found' p stop
    many.1 = one.1 ∧
      { many.2.2 with
        state := one.2.2.state, headerHash := one.2.2.headerHash, lowcaseIndex := one.2.2.lowcaseIndex } = one.2.2 ∧
      (one.1 ≠ .invalidHeader → many.2.1 = one.2.1 ∧ many.2.2.state = one.2.2.state) ∧
      (one.1 ≠ .invalidHeader → one.1 ≠ .headerDone → many.2 = one.2) := by
  cases stop with
  | done r => exact ⟨rfl, rfl, fun _ => ⟨rfl, rfl⟩, fun _ _ => rfl⟩
  | headerDone r => exact ⟨rfl, rfl, fun _ => ⟨rfl, rfl⟩, fun _ hdone => absurd rfl hdone⟩
  | fail r => exact ⟨rfl, rfl, fun hfail => absurd rfl hfail, fun hfail => absurd rfl hfail⟩

theorem statusAnswer_found (pos pos' : Nat) (found found' : Status) (p : Nat) (stop : StatusStop) :
    let one := statusAnswer pos found p stop
    let many := statusAnswer pos' found' p stop
    many.1 = one.1 ∧ { many.2.2 with state := one.2.2.state } = one.2.2 ∧ (one.1 ≠ .error → many.2 = one.2) := by
  cases stop with
  | done r => exact ⟨rfl, rfl, fun _ => rfl⟩
  | fail r => exact ⟨rfl, rfl, fun hfail => absurd rfl hfail⟩

end Nginx.HttpParse
