import Mathlib

-- Bodies in chunks: each chunk is its size in hexadecimal digits, CR LF, the data and CR LF; a chunk of size 0 and an
-- empty trailer end the body.
namespace ChunkedCoding

def digitValue (c : UInt8) : Option Nat :=
  if 48 ≤ c ∧ c ≤ 57 then some (c.toNat - 48)
  else if 97 ≤ c ∧ c ≤ 102 then some (c.toNat - 87)
  else if 65 ≤ c ∧ c ≤ 70 then some (c.toNat - 55)
  else none

def sizeFrom : Nat → List UInt8 → Option Nat
  | n, [] => some n
  | n, c :: digits => (digitValue c).bind fun d => sizeFrom (n * 16 + d) digits

def size (digits : List UInt8) : Option Nat := if digits = [] then none else sizeFrom 0 digits

def crlf : List UInt8 := [13, 10]

-- An encoded body and what it decodes to
inductive Body : List UInt8 → List UInt8 → Prop
  | last (digits : List UInt8) : size digits = some 0 → Body (digits ++ crlf ++ crlf) []
  | chunk (digits data rest decoded : List UInt8) : size digits = some data.length → data ≠ [] →
      Body rest decoded → Body (digits ++ crlf ++ data ++ crlf ++ rest) (data ++ decoded)

theorem sizeFrom_no_cr (n : Nat) (digits : List UInt8) (h : (sizeFrom n digits).isSome) : 13 ∉ digits := by
  induction digits generalizing n with
  | nil => simp
  | cons c digits ih =>
      rw [sizeFrom] at h
      intro hmem
      rcases List.mem_cons.mp hmem with rfl | hmem
      · simp [digitValue] at h
      · cases hd : digitValue c with
        | none => simp [hd] at h
        | some d =>
            rw [hd] at h
            exact ih (n * 16 + d) h hmem

theorem size_no_cr (n : Nat) (digits : List UInt8) (h : size digits = some n) : 13 ∉ digits := by
  unfold size at h
  split at h
  · cases h
  · exact sizeFrom_no_cr 0 digits (by simp [h])

-- The digits end at the first CR.
theorem digits_unique (digits digits' rest rest' : List UInt8) (h : 13 ∉ digits) (h' : 13 ∉ digits')
    (heq : digits ++ (crlf ++ rest) = digits' ++ (crlf ++ rest')) : digits = digits' ∧ rest = rest' := by
  have htake : ∀ (l more : List UInt8), 13 ∉ l → (l ++ (crlf ++ more)).takeWhile (· ≠ 13) = l := by
    intro l more hl
    rw [List.takeWhile_append_of_pos]
    · simp [crlf]
    · intro c hc
      have hne : c ≠ 13 := fun heq => hl (heq ▸ hc)
      simpa using hne
  have hdigits : digits = digits' := by
    rw [← htake digits rest h, ← htake digits' rest' h', heq]
  subst hdigits
  have htail := List.append_cancel_left heq
  exact ⟨rfl, List.append_cancel_left htail⟩

-- A body decodes in one way only.
theorem Body.unique {body decoded decoded' : List UInt8} (h : Body body decoded) (h' : Body body decoded') :
    decoded = decoded' := by
  induction h generalizing decoded' with
  | last digits hzero =>
      generalize hbody : digits ++ crlf ++ crlf = body at h'
      cases h' with
      | last digits' hzero' => rfl
      | chunk digits' data rest decoded hsize hne hrest =>
          simp only [List.append_assoc] at hbody
          obtain ⟨rfl, -⟩ := digits_unique _ _ _ _ (size_no_cr _ _ hzero) (size_no_cr _ _ hsize) hbody
          have hlen : data.length = 0 := Option.some.inj (hsize.symm.trans hzero)
          exact absurd (List.length_eq_zero_iff.mp hlen) hne
  | chunk digits data rest decoded hsize hne hrest ih =>
      generalize hbody : digits ++ crlf ++ data ++ crlf ++ rest = body at h'
      cases h' with
      | last digits' hzero =>
          simp only [List.append_assoc] at hbody
          obtain ⟨rfl, -⟩ := digits_unique _ _ _ _ (size_no_cr _ _ hsize) (size_no_cr _ _ hzero) hbody
          have hlen : data.length = 0 := Option.some.inj (hsize.symm.trans hzero)
          exact absurd (List.length_eq_zero_iff.mp hlen) hne
      | chunk digits' data' rest' decoded' hsize' hne' hrest' =>
          simp only [List.append_assoc] at hbody
          obtain ⟨rfl, htail⟩ := digits_unique _ _ _ _ (size_no_cr _ _ hsize) (size_no_cr _ _ hsize') hbody
          have hlen : data.length = data'.length := Option.some.inj (hsize.symm.trans hsize')
          obtain ⟨rfl, hmore⟩ := List.append_inj htail hlen
          have hrests : rest = rest' := List.append_cancel_left hmore
          subst hrests
          rw [ih hrest']

-- Encoded chunks that more chunks can follow
def Open (encoded decoded : List UInt8) : Prop :=
  ∀ rest more, Body rest more → Body (encoded ++ rest) (decoded ++ more)

theorem open_nil : Open [] [] := fun _ _ h => h

theorem Open.append {encoded decoded : List UInt8} (h : Open encoded decoded) (digits data : List UInt8)
    (hsize : size digits = some data.length) (hne : data ≠ []) :
    Open (encoded ++ (digits ++ crlf ++ data ++ crlf)) (decoded ++ data) := by
  intro rest more hrest
  have hchunk := h _ _ (Body.chunk digits data rest more hsize hne hrest)
  simpa only [List.append_assoc] using hchunk

theorem Open.close {encoded decoded : List UInt8} (h : Open encoded decoded) (digits : List UInt8)
    (hzero : size digits = some 0) : Body (encoded ++ (digits ++ crlf ++ crlf)) decoded := by
  have hbody := h _ _ (Body.last digits hzero)
  rwa [List.append_nil] at hbody

end ChunkedCoding
