import Nginx.Http.ComplexValue

namespace Nginx.ComplexValue

open Script WordMemory

-- What a code leaves in the array of the length codes.
def lengthCells : Code → Slots
  | .copy text => word (.code .copyLen) ++ word (.operand text.length)
  | .copyVar index => word (.code .copyVarLen) ++ word (.operand index)
  | .startArgs => word (.code .markArgs)
  | .copyCapture n => word (.code .copyCaptureLen) ++ word (.operand (2 * n))

-- What it leaves in the array of the value codes. Nothing is written to the bytes that fill up the
-- last word of a text.
def ValueCells : Code → Slots → Prop
  | .copy text, l => ∃ pad, text.length + pad.length = Hash.align text.length 8 ∧
      l = word (.code .copy) ++ (word (.operand text.length) ++ (text.map .byte ++ pad))
  | .copyVar index, l => l = word (.code .copyVar) ++ word (.operand index)
  | .startArgs, l => l = word (.code .startArgs)
  | .copyCapture n, l => l = word (.code .copyCapture) ++ word (.operand (2 * n))

inductive Program : List Code → Slots → Prop
  | nil : Program [] []
  | cons {code codes l l'} : ValueCells code l → Program codes l' → Program (code :: codes) (l ++ l')

theorem Program.append {codes codes' : List Code} {l l' : Slots} (h : Program codes l)
    (h' : Program codes' l') : Program (codes ++ codes') (l ++ l') := by
  induction h with
  | nil => exact h'
  | cons hcode _ ih =>
      rw [List.cons_append, List.append_assoc]
      exact .cons hcode ih

def index? : Code → Option Nat
  | .copyVar index => some index
  | _ => none

section Room

def Codes.used (codes : Codes) : Slots := codes.elts.take codes.nelts

theorem length_used (codes : Codes) : codes.used.length = codes.nelts := by
  rw [Codes.used, List.length_take]
  exact Nat.min_eq_left codes.fits

-- The codes in front of a new one, and the bytes of the new one.
structure Room (base fresh : Slots) (codes : Codes) : Prop where
  nelts : codes.nelts = base.length + fresh.length
  elts : ∃ rest, codes.elts = base ++ (fresh ++ rest)

theorem room_addCode {codes codes' : Codes} {size a : Nat} {pool pool' : List Growth}
    (h : addCode codes size pool = some (a, codes', pool')) :
    a = codes.used.length ∧ ∃ fresh, fresh.length = size ∧ Room codes.used fresh codes' := by
  -- wherever the array is afterwards, it has the old bytes and size more behind them
  obtain ⟨ha, hnelts, l, helts⟩ : a = codes.nelts ∧ codes'.nelts = codes.nelts + size ∧
      ∃ l, codes'.elts = codes.used ++ l := by
    unfold addCode at h
    split at h
    · split at h
      · simp only [Option.some.injEq, Prod.mk.injEq] at h
        obtain ⟨rfl, rfl, rfl⟩ := h
        refine ⟨rfl, rfl, codes.elts.drop codes.nelts ++ List.replicate size .junk, ?_⟩
        rw [Codes.used, ← List.append_assoc, List.take_append_drop]
      · simp only [Option.some.injEq, Prod.mk.injEq] at h
        obtain ⟨rfl, rfl, rfl⟩ := h
        exact ⟨rfl, rfl, _, rfl⟩
      · cases h
    · simp only [Option.some.injEq, Prod.mk.injEq] at h
      obtain ⟨rfl, rfl, rfl⟩ := h
      exact ⟨rfl, rfl, codes.elts.drop codes.nelts, (List.take_append_drop _ _).symm⟩
  have hfits := codes'.fits
  have hlen := length_used codes
  rw [helts, hnelts, List.length_append, hlen] at hfits
  have hfresh : (l.take size).length = size := by
    rw [List.length_take]
    omega
  refine ⟨ha.trans hlen.symm, l.take size, hfresh, ?_, l.drop size, ?_⟩
  · rw [hnelts, hlen, hfresh]
  · rw [helts, List.take_append_drop]

theorem Room.used {base fresh : Slots} {codes : Codes} (h : Room base fresh codes) :
    codes.used = base ++ fresh := by
  obtain ⟨rest, helts⟩ := h.elts
  rw [Codes.used, helts, h.nelts, ← List.append_assoc]
  exact List.take_left' List.length_append

theorem Room.write {base fresh : Slots} {codes : Codes} (h : Room base fresh codes) (k : Nat)
    (xs : Slots) (hk : k + xs.length ≤ fresh.length) :
    Room base (fresh.take k ++ xs ++ fresh.drop (k + xs.length)) (codes.write (base.length + k) xs) := by
  obtain ⟨rest, helts⟩ := h.elts
  refine ⟨?_, rest, ?_⟩
  · simp only [Codes.write, h.nelts, List.length_append, List.length_take, List.length_drop]
    omega
  · simp only [Codes.write, helts]
    exact store_append base fresh rest xs k hk

theorem Room.put {base fresh : Slots} {codes : Codes} (h : Room base fresh codes) (op : Op) (n : Nat)
    (hk : 16 ≤ fresh.length) :
    Room base (word (.code op) ++ (word (.operand n) ++ fresh.drop 16)) (codes.put base.length op n) := by
  have hop := h.write 0 (word (.code op)) (by rw [length_word]; omega)
  rw [List.take_zero, List.nil_append, length_word, Nat.zero_add, Nat.add_zero] at hop
  have hboth := hop.write 8 (word (.operand n)) (by
    rw [List.length_append, length_word, length_word, List.length_drop]
    omega)
  have hdrop : (word (Cell.code op) ++ fresh.drop 8).drop (8 + 8) = fresh.drop 16 := by
    rw [← List.drop_drop, List.drop_left' (length_word _), List.drop_drop]
  rw [List.take_left' (length_word _), length_word, hdrop, List.append_assoc] at hboth
  exact hboth

end Room

section Add

-- What one call of an add function does to both arrays.
structure Added (s : Arrays) (code : Code) (s' : Arrays) : Prop where
  flushes : s'.flushes = s.flushes ++ (index? code).toList
  lengths : s'.lengths.used = s.lengths.used ++ lengthCells code
  values : ∃ l, ValueCells code l ∧ s'.values.used = s.values.used ++ l

theorem put_used {codes codes' : Codes} {a : Nat} {pool pool' : List Growth} (op : Op) (n : Nat)
    (h : addCode codes 16 pool = some (a, codes', pool')) :
    (codes'.put a op n).used = codes.used ++ (word (.code op) ++ word (.operand n)) := by
  obtain ⟨rfl, fresh, hfresh, hroom⟩ := room_addCode h
  rw [(hroom.put op n (by omega)).used, List.drop_of_length_le (by omega), List.append_nil]

theorem write_used {codes codes' : Codes} {a : Nat} {pool pool' : List Growth} (w : Cell)
    (h : addCode codes 8 pool = some (a, codes', pool')) :
    (codes'.write a (word w)).used = codes.used ++ word w := by
  obtain ⟨rfl, fresh, hfresh, hroom⟩ := room_addCode h
  have hwrite := hroom.write 0 (word w) (by rw [length_word]; omega)
  rw [List.take_zero, List.nil_append, length_word, Nat.zero_add, Nat.add_zero,
    List.drop_of_length_le (by omega), List.append_nil] at hwrite
  exact hwrite.used

theorem added_copy {s s' : Arrays} {text : Bytes} (h : s.addCopyCode text = some s') :
    Added s (.copy text) s' := by
  obtain ⟨⟨a, lengths, pool⟩, hlengths, h⟩ := Option.bind_eq_some_iff.mp h
  obtain ⟨⟨b, values, pool'⟩, hvalues, h⟩ := Option.bind_eq_some_iff.mp h
  obtain rfl := Option.some.inj h
  refine ⟨(List.append_nil _).symm, put_used .copyLen text.length hlengths, ?_⟩
  obtain ⟨rfl, fresh, hfresh, hroom⟩ := room_addCode hvalues
  have hsize : Hash.align (16 + text.length) 8 = 16 + Hash.align text.length 8 := by
    unfold Hash.align
    omega
  have hle : text.length ≤ Hash.align text.length 8 := by
    unfold Hash.align
    omega
  rw [hsize] at hfresh
  have hput := hroom.put .copy text.length (by omega)
  have htext := hput.write 16 (text.map .byte) (by
    simp only [List.length_append, length_word, List.length_drop, List.length_map]
    omega)
  have hhead : ∀ l : Slots, word (Cell.code .copy) ++ (word (.operand text.length) ++ l) =
      (word (.code .copy) ++ word (.operand text.length)) ++ l := fun l => (List.append_assoc _ _ _).symm
  have h16 : (word (Cell.code .copy) ++ word (Cell.operand text.length)).length = 16 := by
    rw [List.length_append, length_word, length_word]
  rw [hhead, List.take_left' h16, List.length_map, ← List.drop_drop, List.drop_left' h16,
    List.drop_drop] at htext
  refine ⟨_, ⟨fresh.drop (16 + text.length), ?_, rfl⟩, ?_⟩
  · rw [List.length_drop]
    omega
  · rw [htext.used, hhead]
    simp only [List.append_assoc]

theorem added_operand {s s' : Arrays} {lcode code : Op} {n : Nat}
    (h : s.addOperandCode lcode code n = some s') :
    s'.flushes = s.flushes ∧
      s'.lengths.used = s.lengths.used ++ (word (.code lcode) ++ word (.operand n)) ∧
      s'.values.used = s.values.used ++ (word (.code code) ++ word (.operand n)) := by
  obtain ⟨⟨a, lengths, pool⟩, hlengths, h⟩ := Option.bind_eq_some_iff.mp h
  obtain ⟨⟨b, values, pool'⟩, hvalues, h⟩ := Option.bind_eq_some_iff.mp h
  obtain rfl := Option.some.inj h
  exact ⟨rfl, put_used lcode n hlengths, put_used code n hvalues⟩

theorem added_words {s s' : Arrays} {lw w : Cell} (h : s.addWords lw w = some s') :
    s'.flushes = s.flushes ∧ s'.lengths.used = s.lengths.used ++ word lw ∧
      s'.values.used = s.values.used ++ word w := by
  obtain ⟨⟨a, lengths, pool⟩, hlengths, h⟩ := Option.bind_eq_some_iff.mp h
  obtain ⟨⟨b, values, pool'⟩, hvalues, h⟩ := Option.bind_eq_some_iff.mp h
  obtain rfl := Option.some.inj h
  exact ⟨rfl, write_used lw hlengths, write_used w hvalues⟩

theorem added (s s' : Arrays) (code : Code) (h : s.add code = some s') : Added s code s' := by
  cases code with
  | copy text => exact added_copy h
  | copyVar index =>
      obtain ⟨hflushes, hlengths, hvalues⟩ := added_operand h
      exact ⟨hflushes, hlengths, _, rfl, hvalues⟩
  | startArgs =>
      obtain ⟨hflushes, hlengths, hvalues⟩ := added_words h
      exact ⟨hflushes.trans (List.append_nil _).symm, hlengths, _, rfl, hvalues⟩
  | copyCapture n =>
      obtain ⟨hflushes, hlengths, hvalues⟩ := added_operand h
      exact ⟨hflushes.trans (List.append_nil _).symm, hlengths, _, rfl, hvalues⟩

theorem added_all (codes : List Code) (s s' : Arrays) (h : codes.foldlM Arrays.add s = some s') :
    s'.flushes = s.flushes ++ codes.filterMap index? ∧
      s'.lengths.used = s.lengths.used ++ codes.flatMap lengthCells ∧
      ∃ l, Program codes l ∧ s'.values.used = s.values.used ++ l := by
  induction codes generalizing s with
  | nil =>
      obtain rfl := Option.some.inj h
      exact ⟨by simp, by simp, [], .nil, by simp⟩
  | cons code codes ih =>
      rw [List.foldlM_cons] at h
      obtain ⟨t, hadd, hrest⟩ := Option.bind_eq_some_iff.mp h
      have ha := added s t code hadd
      obtain ⟨hflushes, hlengths, l', hprogram, hvalues⟩ := ih t hrest
      obtain ⟨l, hcells, hl⟩ := ha.values
      refine ⟨?_, ?_, l ++ l', .cons hcells hprogram, ?_⟩
      · rw [hflushes, ha.flushes, List.append_assoc]
        cases hi : index? code <;> simp [hi]
      · rw [hlengths, ha.lengths, List.append_assoc, List.flatMap_cons]
      · rw [hvalues, hl, List.append_assoc]

-- Both arrays begin with the programs of the codes and a NULL.
theorem emit_spec (codes : List Code) (s s' : Arrays) (hs : s.lengths.used = [] ∧ s.values.used = [])
    (h : emit codes s = some s') :
    s'.flushes = s.flushes ++ codes.filterMap index? ∧
      (∃ post, s'.lengths.elts = codes.flatMap lengthCells ++ (word .null ++ post)) ∧
      ∃ l post, Program codes l ∧ s'.values.elts = l ++ (word .null ++ post) := by
  obtain ⟨t, hcodes, hdone⟩ := Option.bind_eq_some_iff.mp h
  obtain ⟨hflushes, hlengths, l, hprogram, hvalues⟩ := added_all codes s t hcodes
  obtain ⟨hf, hl, hv⟩ := added_words hdone
  rw [hlengths, hs.1, List.nil_append] at hl
  rw [hvalues, hs.2, List.nil_append] at hv
  refine ⟨hf.trans hflushes, ⟨s'.lengths.elts.drop s'.lengths.nelts, ?_⟩, l,
    s'.values.elts.drop s'.values.nelts, hprogram, ?_⟩
  · rw [← List.append_assoc, ← hl, Codes.used, List.take_append_drop]
  · rw [← List.append_assoc, ← hv, Codes.used, List.take_append_drop]

end Add

end Nginx.ComplexValue
