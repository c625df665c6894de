import Nginx.Library.ByteMemory

-- Names of a wire format of labels and compression pointers: a length octet of 1 to 63 before
-- each label, an octet of zero at the end, and marked octets that point elsewhere.
namespace DomainName

open ByteMemory hiding encode encode_length

abbrev Label := List UInt8

-- The offset a pointer octet and the octet after it give.
def target (mem : Memory) (p : Nat) : Nat := (mem p).toNat % 64 * 256 + (mem (p + 1)).toNat

-- The labels of the name at an offset. What marks a pointer is left to the reader of the format.
inductive Denotes (marks : UInt8 → Bool) (mem : Memory) : Nat → List Label → Prop
  | root {p : Nat} : mem p = 0 → Denotes marks mem p []
  | label {p : Nat} {ls : List Label} : mem p ≠ 0 → (mem p).toNat < 64 →
      Denotes marks mem (p + 1 + (mem p).toNat) ls →
      Denotes marks mem p (load mem (p + 1) (mem p).toNat :: ls)
  | pointer {p : Nat} {ls : List Label} : marks (mem p) = true →
      Denotes marks mem (target mem p) ls → Denotes marks mem p ls

-- Both top bits, as the format says, and either of them.
def bothBits (b : UInt8) : Bool := 192 ≤ b.toNat

def eitherBit (b : UInt8) : Bool := 64 ≤ b.toNat

variable {marks marks' : UInt8 → Bool} {mem : Memory} {p : Nat} {ls ls' : List Label}

theorem Denotes.mono (hm : ∀ b, marks b = true → marks' b = true) (h : Denotes marks mem p ls) :
    Denotes marks' mem p ls := by
  induction h with
  | root h0 => exact .root h0
  | label h0 h1 _ ih => exact .label h0 h1 ih
  | pointer h0 _ ih => exact .pointer (hm _ h0) ih

-- A name has one reading when every mark sets one of the top bits.
theorem Denotes.unique (marks : UInt8 → Bool) (hm : ∀ b, marks b = true → 64 ≤ b.toNat) (h : Denotes marks mem p ls)
    (h' : Denotes marks mem p ls') : ls = ls' := by
  induction h generalizing ls' with
  | root h0 =>
      cases h' with
      | root _ => rfl
      | label h1 _ _ => exact absurd h0 h1
      | pointer h1 _ =>
          have h64 := hm _ h1
          simp [h0] at h64
  | label h0 h1 _ ih =>
      cases h' with
      | root h2 => exact absurd h2 h0
      | label _ _ h2 => rw [ih h2]
      | pointer h2 _ =>
          have h64 := hm _ h2
          omega
  | pointer h0 _ ih =>
      have h64 := hm _ h0
      cases h' with
      | root h2 => simp [h2] at h64
      | label _ h2 _ => omega
      | pointer _ h2 => exact ih h2

theorem Denotes.unique_of_bothBits (h : Denotes eitherBit mem p ls)
    (h' : Denotes bothBits mem p ls') : ls' = ls := by
  refine Denotes.unique eitherBit (fun b hb => of_decide_eq_true hb) ?_ h
  refine h'.mono fun b hb => ?_
  have h192 : 192 ≤ b.toNat := of_decide_eq_true hb
  exact decide_eq_true (by omega)

theorem Denotes.labels_ne_nil (h : Denotes marks mem p ls) : ∀ l ∈ ls, l ≠ [] := by
  induction h with
  | root _ => simp
  | @label p ls h0 _ _ ih =>
      intro l hl
      cases List.mem_cons.mp hl with
      | inl h =>
          have hpos : (mem p).toNat ≠ 0 := fun h => h0 (UInt8.toNat_inj.mp h)
          rw [h, ← List.length_pos_iff, load_length]
          omega
      | inr h => exact ih l h
  | pointer _ _ ih => exact ih

-- The labels one after another, without pointers.
def encode : List Label → List UInt8
  | [] => [0]
  | l :: ls => UInt8.ofNat l.length :: (l ++ encode ls)

-- The labels with a dot between two of them.
def dotted : List Label → List UInt8
  | [] => []
  | [l] => l
  | l :: l' :: ls => l ++ 46 :: dotted (l' :: ls)

theorem dotted_cons (l : Label) (h : ls ≠ []) : dotted (l :: ls) = l ++ 46 :: dotted ls := by
  cases ls with
  | nil => exact absurd rfl h
  | cons l' ls => rfl

theorem dotted_byte (c : UInt8) (l : Label) (ls : List Label) : dotted ((c :: l) :: ls) = c :: dotted (l :: ls) := by
  cases ls <;> rfl

theorem dotted_append (l m : Label) (ls : List Label) : dotted ((l ++ m) :: ls) = l ++ dotted (m :: ls) := by
  induction l with
  | nil => rfl
  | cons c l ih => rw [List.cons_append, dotted_byte, ih, List.cons_append]

def WellFormed (ls : List Label) : Prop := ∀ l ∈ ls, l ≠ [] ∧ l.length < 64

instance (ls : List Label) : Decidable (WellFormed ls) :=
  inferInstanceAs (Decidable (∀ l ∈ ls, l ≠ [] ∧ l.length < 64))

-- One octet for each label and one between two of them.
def span (ls : List Label) : Nat := (ls.map fun l => l.length + 1).sum

@[simp] theorem span_nil : span [] = 0 := rfl

@[simp] theorem span_cons (l : Label) (ls : List Label) : span (l :: ls) = l.length + 1 + span ls := by
  simp [span]

theorem encode_length (ls : List Label) : (encode ls).length = span ls + 1 := by
  induction ls with
  | nil => rfl
  | cons l ls ih =>
      rw [encode, List.length_cons, List.length_append, ih, span_cons]
      omega

theorem dotted_length (h : ls ≠ []) : (dotted ls).length + 1 = span ls := by
  induction ls with
  | nil => exact absurd rfl h
  | cons l ls ih =>
      cases ls with
      | nil => simp [dotted]
      | cons l' ls =>
          have hih := ih (List.cons_ne_nil _ _)
          rw [dotted_cons l (List.cons_ne_nil _ _), span_cons, List.length_append, List.length_cons]
          omega

-- Between labels without dots the dots of the name are separators only.
theorem dotted_head (hne : ∀ l ∈ ls, l ≠ []) (hdot : ∀ l ∈ ls, 46 ∉ l) : (dotted ls).head? ≠ some 46 := by
  cases ls with
  | nil => simp [dotted]
  | cons l ls =>
      have hl := hdot l List.mem_cons_self
      obtain ⟨b, bs, rfl⟩ := List.exists_cons_of_ne_nil (hne l List.mem_cons_self)
      have hb : b ≠ 46 := fun h => hl (h ▸ List.mem_cons_self)
      cases ls with
      | nil => simpa [dotted] using hb
      | cons l' ls => simpa [dotted] using hb

theorem dotted_last (hne : ∀ l ∈ ls, l ≠ []) (hdot : ∀ l ∈ ls, 46 ∉ l) : (dotted ls).getLast? ≠ some 46 := by
  induction ls with
  | nil => simp [dotted]
  | cons l ls ih =>
      cases ls with
      | nil =>
          intro h
          exact hdot l List.mem_cons_self (List.mem_of_getLast? h)
      | cons l' ls =>
          have htail := ih (fun k hk => hne k (List.mem_cons_of_mem _ hk)) (fun k hk => hdot k (List.mem_cons_of_mem _ hk))
          have hnil : dotted (l' :: ls) ≠ [] := by
            have hlen := dotted_length (List.cons_ne_nil l' ls)
            have hpos := List.length_pos_of_ne_nil (hne l' (by simp))
            rw [span_cons] at hlen
            rw [← List.length_pos_iff]
            omega
          obtain ⟨b, bs, hd⟩ := List.exists_cons_of_ne_nil hnil
          rw [dotted_cons l (List.cons_ne_nil _ _)]
          rw [hd] at htail ⊢
          simpa [List.getLast?_append] using htail

end DomainName
