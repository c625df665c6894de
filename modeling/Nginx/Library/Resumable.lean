import Mathlib

-- Machines that read a buffer from a position on, may stop at an element, and go on when the buffer has grown.
namespace Resumable

inductive Turn (σ ρ : Type) where
  | next (s : σ)
  | stop (r : ρ)

variable {α σ ρ γ : Type}

-- The n elements from p on; a machine that stops tells where.
def scan (turn : Nat → σ → Turn σ ρ) : Nat → Nat → σ → Turn σ (Nat × ρ)
  | 0, _, s => .next s
  | n + 1, p, s =>
    match turn p s with
    | .next s => scan turn n (p + 1) s
    | .stop r => .stop (p, r)

-- What a call returns: a stop may go back to the position and the state that the call has found.
def outcome (answer : Nat → σ → Nat → ρ → γ × Nat × σ) (again : γ) (pos last : Nat) (found : σ) :
    Turn σ (Nat × ρ) → γ × Nat × σ
  | .next s => (again, last, s)
  | .stop (p, r) => answer pos found p r

-- One call: from pos to last
def call (turn : (Nat → α) → Nat → σ → Turn σ ρ) (answer : Nat → σ → Nat → ρ → γ × Nat × σ) (again : γ)
    (buf : Nat → α) (pos last : Nat) (s : σ) : γ × Nat × σ :=
  outcome answer again pos (pos + (last - pos)) s (scan (turn buf) (last - pos) pos s)

def contents [Inhabited α] (as : List α) (i : Nat) : α := as.getD i default

-- The pieces are appended one by one, with a call after each, up to the first result that is not again.
def pieces [Inhabited α] [DecidableEq γ] (parse : (Nat → α) → Nat → Nat → σ → γ × Nat × σ) (again : γ) :
    List α → Nat → σ → List (List α) → γ × Nat × σ
  | _, pos, s, [] => (again, pos, s)
  | as, pos, s, piece :: rest =>
    let as := as ++ piece
    let (code, pos, s) := parse (contents as) pos as.length s
    if code = again then pieces parse again as pos s rest else (code, pos, s)

variable {turn turn' : Nat → σ → Turn σ ρ} {m n p : Nat} {s s' : σ} {r : Nat × ρ}

theorem scan_next_add (h : scan turn m p s = .next s') (n : Nat) : scan turn (m + n) p s = scan turn n (p + m) s' := by
  induction m generalizing p s with
  | zero =>
      cases h
      rw [Nat.zero_add, Nat.add_zero]
  | succ m ih =>
      rw [Nat.succ_add_eq_add_succ, Nat.add_succ, scan]
      rw [scan] at h
      cases hturn : turn p s with
      | next s₁ =>
          rw [hturn] at h
          have hrest := ih h
          rw [Nat.add_assoc, Nat.add_comm 1 m] at hrest
          exact hrest
      | stop r =>
          rw [hturn] at h
          cases h

theorem scan_stop_add (h : scan turn m p s = .stop r) (n : Nat) : scan turn (m + n) p s = .stop r := by
  induction m generalizing p s with
  | zero => cases h
  | succ m ih =>
      rw [Nat.succ_add_eq_add_succ, Nat.add_succ, scan]
      rw [scan] at h
      cases hturn : turn p s with
      | next s₁ =>
          rw [hturn] at h
          exact ih h
      | stop r =>
          rw [hturn] at h
          exact h

theorem scan_congr (h : ∀ q s, q < p + n → turn q s = turn' q s) : scan turn n p s = scan turn' n p s := by
  induction n generalizing p s with
  | zero => rfl
  | succ n ih =>
      rw [scan, scan, h p s (by omega)]
      cases turn' p s with
      | next s₁ => exact ih fun q s hq => h q s (by omega)
      | stop r => rfl

-- Whether ok holds before each turn that is made.
def along (ok : Nat → σ → Bool) (turn : Nat → σ → Turn σ ρ) : Nat → Nat → σ → Bool
  | 0, _, _ => true
  | n + 1, p, s =>
    ok p s &&
      match turn p s with
      | .next s => along ok turn n (p + 1) s
      | .stop _ => true

def Turn.Meets (Next : σ → Prop) (Stop : ρ → Prop) : Turn σ ρ → Prop
  | .next s => Next s
  | .stop r => Stop r

-- What each turn keeps, the scan keeps.
theorem scan_meets (Inv : Nat → σ → Prop) (Post : Nat → ρ → Prop) {ok : Nat → σ → Bool}
    (hturn : ∀ q s, q < p + n → Inv q s → ok q s = true → (turn q s).Meets (Inv (q + 1)) (Post q))
    (hok : along ok turn n p s = true) (h : Inv p s) :
    (scan turn n p s).Meets (Inv (p + n)) fun r => Post r.1 r.2 := by
  induction n generalizing p s with
  | zero => exact h
  | succ n ih =>
      rw [along, Bool.and_eq_true] at hok
      obtain ⟨hhead, htail⟩ := hok
      have hmeets := hturn p s (by omega) h hhead
      rw [scan]
      cases hresult : turn p s with
      | next s₁ =>
          rw [hresult] at hmeets htail
          have hrest := ih (fun q s hq => hturn q s (by omega)) htail hmeets
          rwa [Nat.add_right_comm, Nat.add_assoc] at hrest
      | stop r =>
          rw [hresult] at hmeets
          exact hmeets

theorem along_true : along (fun _ _ => true) turn n p s = true := by
  induction n generalizing p s with
  | zero => rfl
  | succ n ih =>
      rw [along, Bool.true_and]
      cases turn p s with
      | next s => exact ih
      | stop r => rfl

-- A turn looks at nothing behind its element.
def Local (turn : (Nat → α) → Nat → σ → Turn σ ρ) : Prop :=
  ∀ buf buf' p s, (∀ i ≤ p, buf i = buf' i) → turn buf p s = turn buf' p s

section

variable [Inhabited α] [DecidableEq γ] {turn : (Nat → α) → Nat → σ → Turn σ ρ}
  {answer : Nat → σ → Nat → ρ → γ × Nat × σ} {again : γ}

theorem scan_contents (hlocal : Local turn) (as bs : List α) (hn : p + n ≤ as.length) :
    scan (turn (contents as)) n p s = scan (turn (contents (as ++ bs))) n p s := by
  apply scan_congr
  intro q s hq
  apply hlocal
  intro i hi
  rw [contents, contents, List.getD_append as bs default i (by omega)]

-- The pieces are read as one buffer; only where the call that stops has begun depends on them.
theorem pieces_scan (hlocal : Local turn) (hagain : ∀ pos s p r, (answer pos s p r).1 ≠ again) (ps : List (List α))
    (as : List α) (s : σ) :
    (∃ s', scan (turn (contents (as ++ ps.flatten))) ps.flatten.length as.length s = .next s' ∧
      pieces (call turn answer again) again as as.length s ps = (again, (as ++ ps.flatten).length, s')) ∨
    ∃ p r pos s', scan (turn (contents (as ++ ps.flatten))) ps.flatten.length as.length s = .stop (p, r) ∧
      pieces (call turn answer again) again as as.length s ps = answer pos s' p r := by
  induction ps generalizing as s with
  | nil =>
      refine Or.inl ⟨s, rfl, ?_⟩
      rw [List.flatten_nil, List.append_nil]
      rfl
  | cons piece ps ih =>
      have hsize : (as ++ piece).length - as.length = piece.length := by
        rw [List.length_append, Nat.add_sub_cancel_left]
      have hhead : scan (turn (contents (as ++ piece))) piece.length as.length s =
          scan (turn (contents (as ++ (piece :: ps).flatten))) piece.length as.length s := by
        rw [List.flatten_cons, ← List.append_assoc]
        exact scan_contents hlocal _ _ (Nat.le_of_eq List.length_append.symm)
      rw [pieces, call, hsize, hhead]
      rw [List.flatten_cons, List.length_append]
      cases hscan : scan (turn (contents (as ++ (piece ++ ps.flatten)))) piece.length as.length s with
      | next s₁ =>
          rw [scan_next_add hscan]
          have hpos : as.length + piece.length = (as ++ piece).length := (List.length_append).symm
          dsimp only [outcome]
          rw [if_pos rfl, hpos, ← List.append_assoc]
          exact ih (as ++ piece) s₁
      | stop r =>
          obtain ⟨p, r⟩ := r
          refine Or.inr ⟨p, r, as.length, s, scan_stop_add hscan _, ?_⟩
          dsimp only [outcome]
          rw [if_neg (hagain as.length s p r)]

-- What the turns keep of the whole stream, the answer to its pieces comes from.
theorem pieces_keeps (hlocal : Local turn) (hagain : ∀ pos s p r, (answer pos s p r).1 ≠ again) (ps : List (List α))
    (as : List α) (s : σ) (Inv : Nat → σ → Prop) (Post : Nat → ρ → Prop)
    (hturn : ∀ q s, q < (as ++ ps.flatten).length → Inv q s →
      (turn (contents (as ++ ps.flatten)) q s).Meets (Inv (q + 1)) (Post q))
    (h : Inv as.length s) {result : γ × Nat × σ}
    (hresult : pieces (call turn answer again) again as as.length s ps = result) (hcode : result.1 ≠ again) :
    ∃ p r pos s', Post p r ∧ result = answer pos s' p r := by
  have hmeets := scan_meets Inv Post (n := ps.flatten.length) (p := as.length) (s := s)
    (fun q s hq hinv _ => hturn q s (by rwa [List.length_append]) hinv) along_true h
  obtain ⟨s', -, hpieces⟩ | ⟨p, r, pos, s', hscan, hpieces⟩ := pieces_scan hlocal hagain ps as s
  · rw [← hresult, hpieces] at hcode
    exact absurd rfl hcode
  · rw [hscan] at hmeets
    exact ⟨p, r, pos, s', hmeets, hresult.symm.trans hpieces⟩

end

-- One call on all of them
theorem call_scan [Inhabited α] (turn : (Nat → α) → Nat → σ → Turn σ ρ) (answer : Nat → σ → Nat → ρ → γ × Nat × σ)
    (again : γ) (as bs : List α) (s : σ) :
    call turn answer again (contents (as ++ bs)) as.length (as ++ bs).length s =
      outcome answer again as.length (as ++ bs).length s
        (scan (turn (contents (as ++ bs))) bs.length as.length s) := by
  rw [call, List.length_append, Nat.add_sub_cancel_left]

end Resumable
