import Nginx.Http.Parse.Normalise
import Nginx.Http.Parse.RequestLine

namespace Nginx.HttpParse

-- A path without bytes that have to be decoded or cut off, whose slashes begin no empty and no dot segments.
structure Clean (path : Bytes) : Prop where
  bytes : 0 ∉ path ∧ 35 ∉ path ∧ 37 ∉ path
  segments : ∀ front rest, path = front ++ 47 :: rest →
    rest.head? ≠ some 47 ∧ rest.takeWhile (· ≠ 47) ≠ [46] ∧ rest.takeWhile (· ≠ 47) ≠ [46, 46]

-- The same for one byte and what comes after it.
def SafeHead : Bytes → Prop
  | [] => True
  | c :: rest => c ≠ 0 ∧ c ≠ 35 ∧ c ≠ 37 ∧
      (c = 47 → rest.head? ≠ some 47 ∧ rest.takeWhile (· ≠ 47) ≠ [46] ∧ rest.takeWhile (· ≠ 47) ≠ [46, 46])

theorem clean_iff (path : Bytes) : Clean path ↔ ∀ front rest, path = front ++ rest → SafeHead rest := by
  constructor
  · intro ⟨⟨h0, h35, h37⟩, hsegments⟩ front rest heq
    cases rest with
    | nil => trivial
    | cons c rest =>
        have hmem : c ∈ path := by simp [heq]
        refine ⟨fun hc => h0 (hc ▸ hmem), fun hc => h35 (hc ▸ hmem), fun hc => h37 (hc ▸ hmem), ?_⟩
        rintro rfl
        exact hsegments front rest heq
  · intro h
    have hmem : ∀ c ∈ path, c ≠ 0 ∧ c ≠ 35 ∧ c ≠ 37 := by
      intro c hc
      obtain ⟨front, rest, heq⟩ := List.append_of_mem hc
      obtain ⟨h0, h35, h37, -⟩ := h front (c :: rest) heq
      exact ⟨h0, h35, h37⟩
    refine ⟨⟨fun hc => (hmem 0 hc).1 rfl, fun hc => (hmem 35 hc).2.1 rfl, fun hc => (hmem 37 hc).2.2 rfl⟩, ?_⟩
    intro front rest heq
    exact (h front (47 :: rest) heq).2.2.2 rfl

variable {buf : Nat → UInt8} {us p q : Nat} {r : Request}

-- A position of the path that a turn of the states for checked URIs has read: it does not follow a space.
def Checked (buf : Nat → UInt8) (us i : Nat) : Prop := i = us ∨ buf (i - 1) ≠ 32

-- The path up to a position, with what has been found about its checked bytes.
structure Path (buf : Nat → UInt8) (us q : Nat) : Prop where
  lt : us < q
  slash : buf us = 47
  bytes : ∀ i, us ≤ i → i < q → Checked buf us i → buf i ≠ 0 ∧ buf i ≠ 35 ∧ buf i ≠ 37 ∧ buf i ≠ 63
  slashes : ∀ i, us ≤ i → i + 1 < q → Checked buf us i → buf i = 47 → buf (i + 1) ≠ 47 ∧ buf (i + 1) ≠ 46

theorem Path.mono (h : Path buf us q) (hp : us < p) (hle : p ≤ q) : Path buf us p :=
  ⟨hp, h.slash, fun i hi hlt => h.bytes i hi (by omega), fun i hi hlt => h.slashes i hi (by omega)⟩

theorem Path.first (hslash : buf us = 47) : Path buf us (us + 1) := by
  refine ⟨by omega, hslash, fun i hi hlt _ => ?_, fun i hi hlt => by omega⟩
  obtain rfl : i = us := by omega
  rw [hslash]
  decide

theorem Path.extend (h : Path buf us p)
    (hbyte : Checked buf us p → buf p ≠ 0 ∧ buf p ≠ 35 ∧ buf p ≠ 37 ∧ buf p ≠ 63)
    (hslash : Checked buf us (p - 1) → buf (p - 1) = 47 → buf p ≠ 47 ∧ buf p ≠ 46) : Path buf us (p + 1) := by
  have hlt := h.lt
  refine ⟨by omega, h.slash, fun i hi hle hc => ?_, fun i hi hle hc heq => ?_⟩
  · by_cases hip : i = p
    · subst hip
      exact hbyte hc
    · exact h.bytes i hi (by omega) hc
  · by_cases hip : i + 1 = p
    · subst hip
      exact hslash hc heq
    · exact h.slashes i hi (by omega) hc heq

def Flagged (r : Request) : Prop := r.complexUri = true ∨ r.quotedUri = true

-- What the request line has found out about the URI when its end is known.
def Settled (buf : Nat → UInt8) (r : Request) : Prop :=
  Flagged r ∨ ∃ us ue q, r.uriStart = some us ∧ r.uriEnd = some ue ∧ Path buf us q ∧ q ≤ ue ∧ (q = ue ∨ buf q = 63)

-- What holds before the byte at p is read.
def LineInv (buf : Nat → UInt8) (p : Nat) (r : Request) : Prop :=
  match r.state with
  | .start | .method | .spacesBeforeUri | .schema => True
  | .schemaSlash => ∃ se, r.schemaEnd = some se ∧ se + 1 = p
  | .schemaSlashSlash | .host | .port => ∃ se, r.schemaEnd = some se ∧ buf (se + 1) = 47
  | .afterSlashInUri => ∃ us, r.uriStart = some us ∧ Path buf us p ∧ buf (p - 1) ≠ 32
  | .checkUri => ∃ us, r.uriStart = some us ∧ Path buf us p ∧ buf (p - 1) ≠ 32 ∧
      (buf (p - 1) = 47 → ¬Checked buf us (p - 1))
  | .checkUriHttp09 => ∃ us ue, r.uriStart = some us ∧ r.uriEnd = some ue ∧ Path buf us p ∧ us < ue ∧ ue ≤ p ∧
      buf (p - 1) = 32
  | .uri => Flagged r ∨ ∃ us q, r.uriStart = some us ∧ Path buf us q ∧ q ≤ p ∧ buf q = 63
  | .http09 => Flagged r ∨ ∃ us ue q, r.uriStart = some us ∧ r.uriEnd = some ue ∧ Path buf us q ∧ q ≤ ue ∧
      ue ≤ p ∧ buf q = 63
  | _ => Settled buf r

def TurnInv (buf : Nat → UInt8) (p : Nat) : LineTurn → Prop
  | .next r => LineInv buf (p + 1) r
  | .done r => Settled buf r
  | .fail _ _ => True

-- The same for any two predicates: one for the request that the loop goes on with, one for the request it ends with.
def LineTurn.Meets (I S : Request → Prop) : LineTurn → Prop
  | .next r => I r
  | .done r => S r
  | .fail _ _ => True

section Meets

variable {I S : Request → Prop} {other : LineTurn}

theorem readSpaces_meets (hspace : buf p = 32 → I r) (hcr : I (r.http09 .almostDone)) (hlf : S (r.http09 r.state))
    (hprotocol : I { r with httpProtocol := some p, state := .httpH }) (hother : buf p ≠ 32 → other.Meets I S) :
    (readSpaces r p (buf p) other).Meets I S := by
  unfold readSpaces
  split
  · rename_i h
    exact hspace h
  · split
    · exact hcr
    · split
      · exact hlf
      · split
        · exact hprotocol
        · rename_i h _ _ _
          exact hother h

theorem readUriEnd_meets {spaces : LineState} (hspace : buf p = 32 → I { r with uriEnd := some p, state := spaces })
    (hcr : I ({ r with uriEnd := some p }.http09 .almostDone)) (hlf : S ({ r with uriEnd := some p }.http09 r.state))
    (hother : buf p ≠ 32 → other.Meets I S) : (readUriEnd r p (buf p) spaces other).Meets I S := by
  unfold readUriEnd
  split
  · rename_i h
    exact hspace h
  · split
    · exact hcr
    · split
      · exact hlf
      · rename_i h _ _
        exact hother h

theorem expectLine_meets {want : UInt8} {state : LineState} (h : buf p = want → I { r with state := state }) :
    (expect r (buf p) want state).Meets I S := by
  unfold expect
  split
  · rename_i heq
    exact h heq
  · trivial

end Meets

theorem readSpaces_inv {other : LineTurn} (hspace : buf p = 32 → LineInv buf (p + 1) r) (hsettled : Settled buf r)
    (hother : buf p ≠ 32 → TurnInv buf p other) : TurnInv buf p (readSpaces r p (buf p) other) :=
  readSpaces_meets (I := LineInv buf (p + 1)) hspace hsettled hsettled hsettled hother

theorem readUriEnd_inv {spaces : LineState} {other : LineTurn}
    (hspace : buf p = 32 → LineInv buf (p + 1) { r with uriEnd := some p, state := spaces })
    (hsettled : Settled buf { r with uriEnd := some p })
    (hother : buf p ≠ 32 → TurnInv buf p other) : TurnInv buf p (readUriEnd r p (buf p) spaces other) :=
  readUriEnd_meets (I := LineInv buf (p + 1)) hspace hsettled hsettled hother

theorem expect_inv {want : UInt8} {state : LineState}
    (h : buf p = want → LineInv buf (p + 1) { r with state := state }) :
    TurnInv buf p (expect r (buf p) want state) :=
  expectLine_meets (I := LineInv buf (p + 1)) (S := Settled buf) h

-- A usual byte, a space, a plus and any other byte without a meaning go on with the path.
theorem Path.extend_plain (h : Path buf us p)
    (hbyte : buf p ≠ 0 ∧ buf p ≠ 35 ∧ buf p ≠ 37 ∧ buf p ≠ 46 ∧ buf p ≠ 47 ∧ buf p ≠ 63) : Path buf us (p + 1) := by
  obtain ⟨h0, h35, h37, h46, h47, h63⟩ := hbyte
  exact h.extend (fun _ => ⟨h0, h35, h37, h63⟩) fun _ _ => ⟨h47, h46⟩

theorem usual_byte {ch : UInt8} (h : isUsual ch = true) :
    ch ≠ 0 ∧ ch ≠ 35 ∧ ch ≠ 37 ∧ ch ≠ 46 ∧ ch ≠ 47 ∧ ch ≠ 63 ∧ ch ≠ 32 := by
  have hnot : ¬isUsual ch = false := by simp [h]
  rw [isUsual_eq_false_iff] at hnot
  simp only [List.mem_cons, List.not_mem_nil, or_false, not_or] at hnot
  tauto

theorem Path.settled (h : Path buf us p) (hstart : r.uriStart = some us) :
    Settled buf { r with uriEnd := some p } :=
  .inr ⟨us, p, p, hstart, rfl, h, Nat.le_refl p, .inl rfl⟩

-- The end of a path, and the first of the spaces behind it.
theorem Path.space (h : Path buf us p) (hstart : r.uriStart = some us) (hspace : buf p = 32) :
    LineInv buf (p + 1) { r with uriEnd := some p, state := .checkUriHttp09 } := by
  refine ⟨us, p, hstart, rfl, h.extend_plain ?_, h.lt, Nat.le_succ p, hspace⟩
  rw [hspace]
  decide

theorem afterSlash_inv (hstate : r.state = .afterSlashInUri) (hstart : r.uriStart = some us) (h : Path buf us p)
    (hspace : buf (p - 1) ≠ 32) : TurnInv buf p (lineTurn buf r p) := by
  have hchecked : Checked buf us p := .inr hspace
  simp only [lineTurn, hstate]
  split
  · rename_i husual
    obtain ⟨h0, h35, h37, h46, h47, h63, h32⟩ := usual_byte husual
    exact ⟨us, hstart, h.extend_plain ⟨h0, h35, h37, h46, h47, h63⟩, h32, fun heq => absurd heq h47⟩
  · refine readUriEnd_inv (h.space hstart) (h.settled hstart) fun h32 => ?_
    split
    · exact .inl (.inl rfl)
    · split
      · exact .inl (.inr rfl)
      · split
        · exact .inl (.inl rfl)
        · split
          · rename_i h63
            exact .inr ⟨us, p, hstart, h, Nat.le_succ p, h63⟩
          · split
            · exact .inl (.inl rfl)
            · split
              · rename_i h43
                exact ⟨us, hstart, h.extend_plain (by rw [h43]; decide), h32⟩
              · split
                · trivial
                · rename_i h46 h37 h47 h63 h35 _ h0
                  exact ⟨us, hstart, h.extend_plain ⟨h0, h35, h37, h46, h47, h63⟩, h32, fun heq => absurd heq h47⟩

theorem checkUri_inv (hstate : r.state = .checkUri) (hstart : r.uriStart = some us) (h : Path buf us p)
    (hslash : buf (p - 1) = 47 → ¬Checked buf us (p - 1)) :
    TurnInv buf p (lineTurn buf r p) := by
  have hsafe : buf p ≠ 0 ∧ buf p ≠ 35 ∧ buf p ≠ 37 ∧ buf p ≠ 63 → Path buf us (p + 1) :=
    fun hbyte => h.extend (fun _ => hbyte) fun hc heq => absurd hc (hslash heq)
  simp only [lineTurn, hstate]
  split
  · rename_i husual
    obtain ⟨h0, h35, h37, h46, h47, h63, h32⟩ := usual_byte husual
    rw [TurnInv, LineInv, hstate]
    exact ⟨us, hstart, hsafe ⟨h0, h35, h37, h63⟩, h32, fun heq => absurd heq h47⟩
  · refine readUriEnd_inv (h.space hstart) (h.settled hstart) fun h32 => ?_
    split
    · rename_i h47
      exact ⟨us, hstart, hsafe (by rw [h47]; decide), h32⟩
    · rename_i h47
      split
      · rename_i h46
        exact ⟨us, hstart, hsafe (by rw [h46]; decide), h32, fun heq => absurd heq h47⟩
      · split
        · exact .inl (.inr rfl)
        · split
          · rename_i h63
            exact .inr ⟨us, p, hstart, h, Nat.le_succ p, h63⟩
          · split
            · exact .inl (.inl rfl)
            · split
              · rename_i h43
                exact ⟨us, hstart, hsafe (by rw [h43]; decide), h32, fun heq => absurd heq h47⟩
              · split
                · trivial
                · rename_i h37 h63 h35 _ h0
                  rw [TurnInv, LineInv, hstate]
                  exact ⟨us, hstart, hsafe ⟨h0, h35, h37, h63⟩, h32, fun heq => absurd heq h47⟩

theorem checkUriHttp09_inv {ue : Nat} (hstate : r.state = .checkUriHttp09) (hstart : r.uriStart = some us)
    (hend : r.uriEnd = some ue) (h : Path buf us p) (hue : us < ue) (hle : ue ≤ p) (hspace : buf (p - 1) = 32) :
    TurnInv buf p (lineTurn buf r p) := by
  have hlt := h.lt
  have hblind : ¬Checked buf us p := by
    rintro (heq | hne)
    · omega
    · exact hne hspace
  have hmore : Path buf us (p + 1) :=
    h.extend (fun hc => absurd hc hblind) fun _ heq => by
      rw [hspace] at heq
      exact absurd heq (by decide)
  have hsettled : Settled buf r := .inr ⟨us, ue, ue, hstart, hend, h.mono hue hle, Nat.le_refl ue, .inl rfl⟩
  simp only [lineTurn, hstate]
  refine readSpaces_inv (fun h32 => ?_) hsettled fun h32 => ?_
  · rw [LineInv, hstate]
    exact ⟨us, ue, hstart, hend, hmore, hue, by omega, h32⟩
  · exact ⟨us, hstart, hmore, h32, fun _ => hblind⟩

theorem uri_inv (hstate : r.state = .uri)
    (h : Flagged r ∨ ∃ us q, r.uriStart = some us ∧ Path buf us q ∧ q ≤ p ∧ buf q = 63) :
    TurnInv buf p (lineTurn buf r p) := by
  have hnext : ∀ r', r'.state = .uri → r'.uriStart = r.uriStart → r'.complexUri = r.complexUri →
      r'.quotedUri = r.quotedUri → LineInv buf (p + 1) r' := by
    intro r' hstate' hstart hcomplex hquoted
    rw [LineInv, hstate']
    simp only [Flagged, hstart, hcomplex, hquoted]
    rcases h with hflag | ⟨us, q, hus, hpath, hq, hmark⟩
    · exact .inl hflag
    · exact .inr ⟨us, q, hus, hpath, by omega, hmark⟩
  have hend : ∀ state, Settled buf { r with uriEnd := some p, state := state } ∧
      LineInv buf (p + 1) { r with uriEnd := some p, state := .http09 } := by
    intro state
    rcases h with hflag | ⟨us, q, hus, hpath, hq, hmark⟩
    · exact ⟨.inl hflag, .inl hflag⟩
    · exact ⟨.inr ⟨us, p, q, hus, rfl, hpath, hq, .inr hmark⟩,
        .inr ⟨us, p, q, hus, rfl, hpath, hq, Nat.le_succ p, hmark⟩⟩
  simp only [lineTurn, hstate]
  split
  · exact hnext r hstate rfl rfl rfl
  · refine readUriEnd_inv (fun _ => (hend .uri).2) (hend r.state).1 fun _ => ?_
    split
    · exact .inl (.inl rfl)
    · split
      · trivial
      · exact hnext r hstate rfl rfl rfl

theorem http09_inv (hstate : r.state = .http09)
    (h : Flagged r ∨ ∃ us ue q, r.uriStart = some us ∧ r.uriEnd = some ue ∧ Path buf us q ∧ q ≤ ue ∧ ue ≤ p ∧
      buf q = 63) : TurnInv buf p (lineTurn buf r p) := by
  have hsettled : Settled buf r := by
    rcases h with hflag | ⟨us, ue, q, hus, hue, hpath, hq, -, hmark⟩
    · exact .inl hflag
    · exact .inr ⟨us, ue, q, hus, hue, hpath, hq, .inr hmark⟩
  simp only [lineTurn, hstate]
  refine readSpaces_inv (fun _ => ?_) hsettled fun _ => ?_
  · rw [LineInv, hstate]
    rcases h with hflag | ⟨us, ue, q, hus, hue, hpath, hq, hle, hmark⟩
    · exact .inl hflag
    · exact .inr ⟨us, ue, q, hus, hue, hpath, hq, by omega, hmark⟩
  · rcases h with hflag | ⟨us, ue, q, hus, hue, hpath, hq, hle, hmark⟩
    · exact .inl hflag
    · exact .inr ⟨us, q, hus, hpath, by omega, hmark⟩

theorem singleSlash_settled {se : Nat} (hse : r.schemaEnd = some se) (hslash : buf (se + 1) = 47) :
    Settled buf r.singleSlash := by
  refine .inr ⟨se + 1, se + 2, se + 2, ?_, ?_, Path.first hslash, Nat.le_refl _, .inl rfl⟩ <;>
    simp [Request.singleSlash, hse]

-- The first slash of a path.
theorem first_inv (hslash : buf p = 47) :
    ∃ us, some p = some us ∧ Path buf us (p + 1) ∧ buf (p + 1 - 1) ≠ 32 :=
  ⟨p, rfl, Path.first hslash, by rw [Nat.add_sub_cancel, hslash]; decide⟩

theorem host_inv {se : Nat} (hstate : r.state = .host) (hse : r.schemaEnd = some se) (hslash : buf (se + 1) = 47) :
    TurnInv buf p (lineTurn buf r p) := by
  have hself : LineInv buf (p + 1) r := by
    rw [LineInv, hstate]
    exact ⟨se, hse, hslash⟩
  simp only [lineTurn, hstate]
  split
  · exact hself
  · split
    · exact hself
    · split
      · exact ⟨se, hse, hslash⟩
      · split
        · rename_i h47
          exact first_inv h47
        · split
          · have h := singleSlash_settled (r := { r with hostEnd := some p, state := .host }) hse hslash
            exact h
          · trivial

theorem port_inv {se : Nat} (hstate : r.state = .port) (hse : r.schemaEnd = some se) (hslash : buf (se + 1) = 47) :
    TurnInv buf p (lineTurn buf r p) := by
  have hself : LineInv buf (p + 1) r := by
    rw [LineInv, hstate]
    exact ⟨se, hse, hslash⟩
  simp only [lineTurn, hstate]
  split
  · exact hself
  · split
    · rename_i h47
      exact first_inv h47
    · split
      · have h := singleSlash_settled (r := { r with portEnd := some p, state := .port }) hse hslash
        exact h
      · trivial

-- The states behind the URI.
theorem version_inv (h : Settled buf r) (hstate : r.state ∈ [LineState.firstMajorDigit, .majorDigit, .firstMinorDigit,
    .minorDigit, .spacesAfterDigit, .almostDone]) : TurnInv buf p (lineTurn buf r p) := by
  have hself : LineInv buf (p + 1) r := by
    simp only [List.mem_cons, List.not_mem_nil, or_false] at hstate
    rcases hstate with hs | hs | hs | hs | hs | hs <;> (rw [LineInv, hs]; exact h)
  simp only [List.mem_cons, List.not_mem_nil, or_false] at hstate
  rcases hstate with hs | hs | hs | hs | hs | hs <;> simp only [lineTurn, hs] <;>
    repeat' split
  all_goals first | exact h | exact hself | trivial

theorem lineTurn_inv (h : LineInv buf p r) : TurnInv buf p (lineTurn buf r p) := by
  have hself := h
  unfold LineInv at h
  cases hstate : r.state <;> simp only [hstate] at h
  case start =>
    simp only [lineTurn, hstate]
    split
    · trivial
    · split <;> trivial
  case method =>
    have hnext : LineInv buf (p + 1) r := by rw [LineInv, hstate]; trivial
    simp only [lineTurn, hstate]
    split
    · trivial
    · split
      · trivial
      · exact hnext
  case spacesBeforeUri =>
    have hnext : LineInv buf (p + 1) r := by rw [LineInv, hstate]; trivial
    simp only [lineTurn, hstate]
    split
    · rename_i h47
      exact first_inv h47
    · split
      · trivial
      · split
        · exact hnext
        · trivial
  case schema =>
    have hnext : LineInv buf (p + 1) r := by rw [LineInv, hstate]; trivial
    simp only [lineTurn, hstate]
    split
    · exact hnext
    · split
      · exact ⟨p, rfl, rfl⟩
      · trivial
  case schemaSlash =>
    obtain ⟨se, hse, rfl⟩ := h
    simp only [lineTurn, hstate]
    exact expect_inv fun hslash => ⟨se, hse, hslash⟩
  case schemaSlashSlash =>
    simp only [lineTurn, hstate]
    split
    · exact h
    · trivial
  case host =>
    obtain ⟨se, hse, hslash⟩ := h
    exact host_inv hstate hse hslash
  case port =>
    obtain ⟨se, hse, hslash⟩ := h
    exact port_inv hstate hse hslash
  case afterSlashInUri =>
    obtain ⟨us, hstart, hpath, hspace⟩ := h
    exact afterSlash_inv hstate hstart hpath hspace
  case checkUri =>
    obtain ⟨us, hstart, hpath, -, hslash⟩ := h
    exact checkUri_inv hstate hstart hpath hslash
  case checkUriHttp09 =>
    obtain ⟨us, ue, hstart, hend, hpath, hue, hle, hspace⟩ := h
    exact checkUriHttp09_inv hstate hstart hend hpath hue hle hspace
  case uri => exact uri_inv hstate h
  case http09 => exact http09_inv hstate h
  case hostHttp09 =>
    simp only [lineTurn, hstate]
    refine readSpaces_inv (fun _ => ?_) h fun _ => trivial
    rw [LineInv, hstate]
    exact h
  case httpH =>
    simp only [lineTurn, hstate]
    exact expect_inv fun _ => h
  case httpHT =>
    simp only [lineTurn, hstate]
    exact expect_inv fun _ => h
  case httpHTT =>
    simp only [lineTurn, hstate]
    exact expect_inv fun _ => h
  case httpHTTP =>
    simp only [lineTurn, hstate]
    exact expect_inv fun _ => h
  all_goals exact version_inv h (by simp [hstate])

section Run

variable {I : Nat → Request → Prop} {S : Request → Prop}

-- By induction on the bytes that are read: what each turn keeps holds when more is wanted, and what a last turn leaves
-- holds at the end.
theorem lineLoop_meets (hturn : ∀ p r, I p r → (lineTurn buf r p).Meets (I (p + 1)) S)
    (hdone : ∀ p r, S r → S (lineDone r p).2) (n : Nat) {pos : Nat} {state : LineState} (h : I p r) {rc : LineRc}
    {p' : Nat} {r' : Request} (hrun : lineLoop buf pos state n p r = (rc, p', r')) :
    (rc = .again → I p' r') ∧ (rc = .ok → S r') := by
  induction n generalizing p r with
  | zero =>
      cases hrun
      exact ⟨fun _ => h, nofun⟩
  | succ n ih =>
      have hmeets := hturn p r h
      rw [lineLoop] at hrun
      cases hstep : lineTurn buf r p with
      | next r₁ =>
          rw [hstep] at hmeets hrun
          exact ih hmeets hrun
      | done r₁ =>
          rw [hstep] at hmeets hrun
          have hsettled := hdone p r₁ hmeets
          cases hrun
          refine ⟨fun hagain => ?_, fun _ => hsettled⟩
          split at hagain <;> cases hagain
      | fail rc r₁ =>
          rw [hstep] at hrun
          cases hrun
          exact ⟨nofun, nofun⟩

theorem feed_meets (hturn : ∀ p r, I p r → (lineTurn buf r p).Meets (I (p + 1)) S)
    (hdone : ∀ p r, S r → S (lineDone r p).2) (lasts : List Nat) (h : I p r) {r' : Request}
    (hrun : feed buf lasts p r = (.ok, r')) : S r' := by
  induction lasts generalizing p r with
  | nil => cases hrun
  | cons last lasts ih =>
      rw [feed, parseRequestLine] at hrun
      rcases hloop : lineLoop buf p r.state (last - p) p r with ⟨rc, p₁, r₁⟩
      obtain ⟨hagain, hok⟩ := lineLoop_meets hturn hdone _ h hloop
      rw [hloop] at hrun
      cases rc with
      | again => exact ih (hagain rfl) hrun
      | ok =>
          cases hrun
          exact hok rfl
      | error rc => cases hrun

end Run

theorem feed_settled (lasts : List Nat) (h : LineInv buf p r) {r' : Request}
    (hrun : feed buf lasts p r = (.ok, r')) : Settled buf r' :=
  feed_meets (I := LineInv buf) (S := Settled buf) (fun _ _ h => lineTurn_inv h) (fun _ _ h => h) lasts h hrun

theorem readPlain_merge (mergeSlashes : Bool) (r : Uri) (place : Place) (ch : UInt8)
    (h : ¬(place = .slash ∧ ch = 47)) : readPlain mergeSlashes r place ch = readPlain true r place ch := by
  cases place with
  | slash =>
      have hch : ch ≠ 47 := fun heq => h ⟨rfl, heq⟩
      simp only [readPlain, if_neg hch]
  | usual | dot | dotDot => rfl

-- Merging slashes or not, the rest of a clean path is written as it stands.
theorem complexLoop_clean (mergeSlashes : Bool) {r : Uri} {dirs : List Bytes} {seg : Bytes} (path : Bytes)
    (hclean : Clean (Segments.render 47 dirs seg ++ path)) (hargs : 63 ∉ path) (h : Reads r dirs seg) :
    ∃ q, complexLoop mergeSlashes r path = some q ∧ q.uri = Segments.render 47 dirs seg ++ path := by
  induction path generalizing r dirs seg with
  | nil =>
      refine ⟨_, rfl, ?_⟩
      rw [finish_uri, h.out, List.reverse_reverse, List.append_nil]
  | cons c path ih =>
      obtain ⟨⟨h0, h35, h37⟩, hsegments⟩ := hclean
      simp only [List.mem_append, List.mem_cons, not_or] at h35 h37 hargs
      have hseg : c = 47 → seg ≠ [] ∧ seg ≠ [46] ∧ seg ≠ [46, 46] := by
        rintro rfl
        obtain ⟨front, hfront⟩ := Segments.render_split (47 : UInt8) dirs seg
        have hstarts := hsegments front (seg ++ 47 :: path) (by rw [hfront]; simp)
        have htake : (seg ++ 47 :: path).takeWhile (· ≠ 47) = seg := by
          rw [List.takeWhile_append_of_pos]
          · simp
          · intro d hd
            simpa using fun heq : d = 47 => h.proper.seg (heq ▸ hd)
        rw [htake] at hstarts
        refine ⟨?_, hstarts.2.1, hstarts.2.2⟩
        rintro rfl
        exact hstarts.1 rfl
      obtain ⟨dirs', seg', hstep, hrender⟩ : ∃ dirs' seg', Segments.step 47 46 dirs seg c = some (dirs', seg') ∧
          Segments.render 47 dirs' seg' = Segments.render 47 dirs seg ++ [c] := Segments.step_kept dirs seg c hseg
      have hread := readPlain_spec h.toShows c ⟨Ne.symm h35.2.1, Ne.symm h37.2.1, Ne.symm hargs.1⟩
      rw [hstep] at hread
      obtain ⟨r', hnext, h'⟩ := hread
      have hmerge : readPlain mergeSlashes r (placeOf seg) c = .next r' := by
        rw [readPlain_merge, hnext]
        rintro ⟨hplace, hc⟩
        obtain ⟨hnil, hdot, hdots⟩ := hseg hc
        rw [placeOf, if_neg hnil, if_neg hdot, if_neg hdots] at hplace
        cases hplace
      have hpath : Segments.render 47 dirs seg ++ c :: path = Segments.render 47 dirs' seg' ++ path := by
        rw [hrender, List.append_assoc, List.singleton_append]
      rw [complexLoop, turn, h.state]
      simp only [hmerge]
      rw [hpath]
      refine ih ?_ hargs.2 h'
      rw [← hpath]
      refine ⟨⟨h0, ?_, ?_⟩, hsegments⟩
      · simpa only [List.mem_append, List.mem_cons, not_or] using h35
      · simpa only [List.mem_append, List.mem_cons, not_or] using h37

theorem parseComplexUri_clean (mergeSlashes : Bool) (path : Bytes) (hslash : path.head? = some 47)
    (hclean : Clean path) (hargs : 63 ∉ path) (plusInUri quotedUri : Bool) :
    ∃ q, parseComplexUri mergeSlashes path plusInUri quotedUri = some q ∧ q.uri = path := by
  cases path with
  | nil => cases hslash
  | cons c text =>
      obtain rfl := Option.some.inj hslash
      rw [parseComplexUri_slash]
      rw [List.mem_cons, not_or] at hargs
      exact @complexLoop_clean mergeSlashes _ [] [] text hclean hargs.2 ⟨⟨rfl, ⟨by simp, by simp⟩⟩, rfl⟩

-- The path that the request line hands on, and the bytes of the buffer it consists of.
def pathOf (buf : Nat → UInt8) (us ue : Nat) : Bytes := (slice buf us ue).takeWhile (· ≠ 63)

theorem pathOf_getElem {ue i : Nat} {c : UInt8} (h : (pathOf buf us ue)[i]? = some c) :
    us + i < ue ∧ c = buf (us + i) ∧ c ≠ 63 := by
  have hmem : c ∈ pathOf buf us ue := List.mem_of_getElem? h
  have hne : c ≠ 63 := by simpa using List.mem_takeWhile_imp hmem
  obtain ⟨tail, htail⟩ : pathOf buf us ue <+: slice buf us ue := List.takeWhile_prefix _
  have hlt : i < (pathOf buf us ue).length := (List.getElem?_eq_some_iff.mp h).1
  have hslice : (slice buf us ue)[i]? = some c := by
    rw [← htail, List.getElem?_append_left hlt]
    exact h
  rw [slice_getElem?] at hslice
  split at hslice
  · exact ⟨by omega, (Option.some.inj hslice).symm, hne⟩
  · cases hslice

theorem pathOf_lt {ue i : Nat} {c : UInt8} (hq : q = ue ∨ buf q = 63) (hus : us ≤ q)
    (h : (pathOf buf us ue)[i]? = some c) : us + i < q := by
  by_contra hge
  obtain ⟨hlt, -, -⟩ := pathOf_getElem h
  rcases hq with rfl | hmark
  · exact hge hlt
  · have hlen : q - us < (pathOf buf us ue).length := by
      have hi := (List.getElem?_eq_some_iff.mp h).1
      omega
    obtain ⟨-, hbyte, hne⟩ := pathOf_getElem (List.getElem?_eq_getElem hlen)
    rw [Nat.add_sub_cancel' hus, hmark] at hbyte
    exact hne hbyte

-- A checked byte of the path is safe.
theorem Path.safe (h : Path buf us q) {ue : Nat} (hq : q = ue ∨ buf q = 63) {front rest : Bytes}
    (hsplit : pathOf buf us ue = front ++ rest) (hfront : ∀ first, front ≠ first ++ [32]) : SafeHead rest := by
  cases rest with
  | nil => trivial
  | cons c rest =>
      have hget : (pathOf buf us ue)[front.length]? = some c := by simp [hsplit]
      obtain ⟨-, hc, -⟩ := pathOf_getElem hget
      have hlt := pathOf_lt hq (Nat.le_of_lt h.lt) hget
      have hchecked : Checked buf us (us + front.length) := by
        rcases List.eq_nil_or_concat front with rfl | ⟨first, d, rfl⟩
        · exact .inl rfl
        · refine .inr fun hspace => hfront first ?_
          have hd : (pathOf buf us ue)[first.length]? = some d := by simp [hsplit]
          obtain ⟨-, hd, -⟩ := pathOf_getElem hd
          rw [List.length_concat, ← Nat.add_assoc, Nat.add_sub_cancel] at hspace
          rw [List.concat_eq_append, hd, hspace]
      obtain ⟨h0, h35, h37, -⟩ := h.bytes _ (Nat.le_add_right us _) hlt hchecked
      rw [← hc] at h0 h35 h37
      refine ⟨h0, h35, h37, fun h47 => ?_⟩
      have hnext : ∀ d, rest.head? = some d → d ≠ 47 ∧ d ≠ 46 := by
        intro d hd
        cases rest with
        | nil => cases hd
        | cons e rest =>
            obtain rfl := Option.some.inj hd
            have hget' : (pathOf buf us ue)[front.length + 1]? = some e := by simp [hsplit]
            obtain ⟨-, he, -⟩ := pathOf_getElem hget'
            have hlt' := pathOf_lt hq (Nat.le_of_lt h.lt) hget'
            rw [he]
            exact h.slashes _ (Nat.le_add_right us _) hlt' hchecked (hc ▸ h47)
      have hdots : ∀ tail, rest.takeWhile (· ≠ 47) ≠ 46 :: tail := by
        intro tail heq
        cases rest with
        | nil => cases heq
        | cons e rest =>
            obtain ⟨hne47, hne46⟩ := hnext e rfl
            rw [List.takeWhile_cons_of_pos (by simpa using hne47)] at heq
            exact hne46 (List.cons.inj heq).1
      exact ⟨fun heq => (hnext 47 heq).1 rfl, hdots [], hdots [46]⟩

def stream (line : Bytes) (i : Nat) : UInt8 := line.getD i 0

end Nginx.HttpParse
