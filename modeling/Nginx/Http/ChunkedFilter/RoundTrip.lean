import Nginx.Http.ChunkedFilter
import Nginx.Library.ChunkedCoding

namespace Nginx.ChunkedFilter

open Printf

-- The hexadecimal digits that ngx_sprintf_num writes
def hexDigits (n : Nat) : Bytes := temp 16 1 int64Len n []

theorem digitValue_digit (d : Nat) (h : d < 16) : ChunkedCoding.digitValue (digit 1 d) = some d := by
  revert h
  revert d
  decide

theorem sizeFrom_digit (n : Nat) :
    ∀ d < 16, ∀ p, ChunkedCoding.sizeFrom n (digit 1 d :: p) = ChunkedCoding.sizeFrom (n * 16 + d) p := by
  intro d hd p
  rw [ChunkedCoding.sizeFrom, digitValue_digit d hd, Option.bind_some]

theorem temp_ne_nil (base hex n ui64 : Nat) (p : Bytes) (hp : p ≠ [] ∨ 0 < n) : temp base hex n ui64 p ≠ [] := by
  induction n generalizing ui64 p with
  | zero => simpa [temp] using hp
  | succ n ih =>
      rw [temp]
      split
      · simp
      · exact ih _ _ (Or.inl (by simp))

theorem size_hexDigits (n : Nat) (h : n < 2 ^ 63) : ChunkedCoding.size (hexDigits n) = some n := by
  have hne : hexDigits n ≠ [] := temp_ne_nil _ _ _ _ _ (Or.inr (by decide))
  have hlt : n < 16 ^ (19 + 1) := Nat.lt_of_lt_of_le h (by decide)
  rw [ChunkedCoding.size, if_neg hne]
  exact read_temp (by decide) sizeFrom_digit [] hlt

-- The number of bytes in a chunk and CRLF, as long as it is an off_t
theorem sizeLine_eq (n : Nat) (h : n < 2 ^ 63) : sizeLine n = hexDigits n ++ crlf := by
  have hnat : (BitVec.ofNat 64 n).toNat = n := by
    rw [BitVec.toNat_ofNat]
    exact Nat.mod_eq_of_lt (by omega)
  have hint : (BitVec.ofNat 64 n).toInt = n := by
    rw [BitVec.toInt_eq_toNat_of_lt (by omega), hnat]
  have hitem : next (ngxString "%xO\r\n") [.word (BitVec.ofNat 64 n)] =
      some (signed { hex := 1, sign := false } (BitVec.ofNat 64 n).toInt 0, crlf, []) := rfl
  have hemit : emit (signed { hex := 1, sign := false } (BitVec.ofNat 64 n).toInt 0) = some (hexDigits n) := by
    rw [hint]
    simp [signed, emit, hexDigits]
  have hrender : Renders (ngxString "%xO\r\n") [.word (BitVec.ofNat 64 n)] (hexDigits n ++ crlf) := by
    refine Renders.item hitem hemit ?_
    have htext := (Renders.done []).text crlf (by decide)
    simpa using htext
  have hlen : (hexDigits n ++ crlf).length ≤ 2 ^ 64 - 1 - 0 := by
    have hdigits := temp_length 16 1 (by omega) 19 n [] (Nat.lt_of_lt_of_le h (by decide))
    have hlog : Nat.log 16 n < 16 := Nat.log_lt_of_lt_pow' (by omega) (Nat.lt_of_lt_of_le h (by decide))
    have htwo : crlf.length = 2 := by decide
    rw [List.length_append, htwo]
    simp only [hexDigits, int64Len] at hdigits ⊢
    rw [hdigits]
    simp only [List.length_nil]
    omega
  rw [sizeLine, sprintf, vslprintf_eq_take hrender, Option.getD_some, List.take_of_length_le hlen]

-- The line fits the 18 bytes it is written to.
theorem sizeLine_length (n : Nat) (h : n < 2 ^ 63) : (sizeLine n).length ≤ 18 := by
  have hdigits := temp_length 16 1 (by omega) 19 n [] (Nat.lt_of_lt_of_le h (by decide))
  have hlog : Nat.log 16 n < 16 := Nat.log_lt_of_lt_pow' (by omega) (Nat.lt_of_lt_of_le h (by decide))
  have htwo : crlf.length = 2 := by decide
  rw [sizeLine_eq n h, List.length_append, htwo]
  simp only [hexDigits, int64Len] at hdigits ⊢
  rw [hdigits]
  simp only [List.length_nil]
  omega

section

variable {s : State} {encoded : Bytes} {held : List Nat}

-- What holds while a call has bufs in hand: no buf stands in two places, and what the next filters have and will have
-- consumed is the encoding.
structure Building (s : State) (encoded : Bytes) (held : List Nat) : Prop where
  once : ∀ i, held.count i + s.free.count i + s.busy.count i ≤ 1
  pendingNodup : s.pending.Nodup
  heldNotPending : ∀ i ∈ held, i ∉ s.pending
  freeNotPending : ∀ i ∈ s.free, i ∉ s.pending
  heldLt : ∀ i ∈ held, i < s.next
  freeLt : ∀ i ∈ s.free, i < s.next
  busyLt : ∀ i ∈ s.busy, i < s.next
  pendingLt : ∀ i ∈ s.pending, i < s.next
  pendingFull : ∀ i ∈ s.pending, (s.cells i).own = true → (s.cells i).data ≠ []
  conserved : s.sent ++ s.chainData s.pending = encoded
  active : s.chunked = true ∧ s.headerOnly = false

theorem setCell_same (cells : Nat → Cell) (i : Nat) (c : Cell) : setCell cells i c i = c := by simp [setCell]

theorem setCell_other (cells : Nat → Cell) (i j : Nat) (c : Cell) (h : j ≠ i) : setCell cells i c j = cells j := by
  simp [setCell, h]

theorem chainData_congr (s s' : State) (ids : List Nat) (h : ∀ i ∈ ids, s'.cells i = s.cells i) :
    s'.chainData ids = s.chainData ids := by
  induction ids with
  | nil => rfl
  | cons i ids ih =>
      have hrest := ih (fun j hj => h j (List.mem_cons_of_mem _ hj))
      simp only [State.chainData, List.flatMap_cons] at hrest ⊢
      rw [h i List.mem_cons_self, hrest]

-- A buf that nobody downstream holds can be written.
theorem Building.setCell (h : Building s encoded held) (i : Nat) (c : Cell) (hi : i ∉ s.pending) :
    Building (s.set i c) encoded held := by
  have hcells : ∀ j ∈ s.pending, (s.set i c).cells j = s.cells j := by
    intro j hj
    have hne : j ≠ i := fun heq => hi (heq ▸ hj)
    exact setCell_other s.cells i j c hne
  refine ⟨h.once, h.pendingNodup, h.heldNotPending, h.freeNotPending, h.heldLt, h.freeLt, h.busyLt, h.pendingLt, ?_, ?_,
    h.active⟩
  · intro j hj hown
    rw [hcells j hj] at hown ⊢
    exact h.pendingFull j hj hown
  · rw [← h.conserved]
    congr 1
    exact chainData_congr s (s.set i c) s.pending hcells

theorem Building.new (h : Building s encoded held) (c : Cell) :
    Building { s.set s.next c with next := s.next + 1 } encoded (s.next :: held) := by
  have hnot : s.next ∉ s.pending := fun hmem => Nat.lt_irrefl _ (h.pendingLt _ hmem)
  have hset := h.setCell s.next c hnot
  refine ⟨?_, h.pendingNodup, ?_, h.freeNotPending, ?_, ?_, ?_, ?_, hset.pendingFull, hset.conserved,
    h.active⟩
  · intro j
    have honce := h.once j
    by_cases hj : s.next = j
    · have hheld : held.count j = 0 :=
        List.count_eq_zero.mpr (fun hmem => Nat.lt_irrefl _ (hj ▸ h.heldLt j hmem))
      have hfree : s.free.count j = 0 :=
        List.count_eq_zero.mpr (fun hmem => Nat.lt_irrefl _ (hj ▸ h.freeLt j hmem))
      have hbusy : s.busy.count j = 0 :=
        List.count_eq_zero.mpr (fun hmem => Nat.lt_irrefl _ (hj ▸ h.busyLt j hmem))
      have hone : (s.next :: held).count j = held.count j + 1 := by rw [← hj, List.count_cons_self]
      show (s.next :: held).count j + s.free.count j + s.busy.count j ≤ 1
      omega
    · have hsame : (s.next :: held).count j = held.count j := List.count_cons_of_ne hj
      show (s.next :: held).count j + s.free.count j + s.busy.count j ≤ 1
      omega
  · intro j hj
    rcases List.mem_cons.mp hj with rfl | hj
    · exact hnot
    · exact h.heldNotPending j hj
  · intro j hj
    rcases List.mem_cons.mp hj with rfl | hj
    · exact Nat.lt_succ_self _
    · exact Nat.lt_succ_of_lt (h.heldLt j hj)
  · exact fun j hj => Nat.lt_succ_of_lt (h.freeLt j hj)
  · exact fun j hj => Nat.lt_succ_of_lt (h.busyLt j hj)
  · exact fun j hj => Nat.lt_succ_of_lt (h.pendingLt j hj)

-- The buf of ngx_chain_get_free_buf was in nobody's hands.
theorem getFreeBuf_building (h : Building s encoded held) :
    Building (getFreeBuf s).2 encoded ((getFreeBuf s).1 :: held) ∧
      ∀ j ∈ held, (getFreeBuf s).2.cells j = s.cells j := by
  unfold getFreeBuf
  split
  · rename_i i free hfree
    have hmem : i ∈ s.free := hfree ▸ List.mem_cons_self
    refine ⟨⟨?_, h.pendingNodup, ?_, ?_, ?_, ?_, h.busyLt, h.pendingLt, h.pendingFull, h.conserved,
      h.active⟩, fun _ _ => rfl⟩
    · intro j
      have honce := h.once j
      rw [hfree] at honce
      show (i :: held).count j + free.count j + s.busy.count j ≤ 1
      simp only [List.count_cons] at honce ⊢
      omega
    · intro j hj
      rcases List.mem_cons.mp hj with rfl | hj
      · exact h.freeNotPending j hmem
      · exact h.heldNotPending j hj
    · exact fun j hj => h.freeNotPending j (hfree ▸ List.mem_cons_of_mem i hj)
    · intro j hj
      rcases List.mem_cons.mp hj with rfl | hj
      · exact h.freeLt j hmem
      · exact h.heldLt j hj
    · exact fun j hj => h.freeLt j (hfree ▸ List.mem_cons_of_mem i hj)
  · refine ⟨h.new Cell.empty, ?_⟩
    intro j hj
    exact setCell_other _ _ _ _ (Nat.ne_of_lt (h.heldLt j hj))

theorem addInput_building (h : Building s encoded held) (input : List Cell) :
    Building (addInput s input).1 encoded ((addInput s input).2.reverse ++ held) ∧
      (addInput s input).2.map (addInput s input).1.cells = input ∧
      ∀ j, j < s.next → (addInput s input).1.cells j = s.cells j := by
  induction input generalizing s held with
  | nil => exact ⟨h, rfl, fun _ _ => rfl⟩
  | cons c input ih =>
      obtain ⟨hbuilding, hcells, hold⟩ := ih (h.new c)
      simp only [addInput]
      refine ⟨?_, ?_, ?_⟩
      · simpa using hbuilding
      · rw [List.map_cons, hcells, hold s.next (Nat.lt_succ_self _)]
        congr 1
        exact setCell_same s.cells s.next c
      · intro j hj
        rw [hold j (Nat.lt_succ_of_lt hj)]
        exact setCell_other s.cells s.next j c (Nat.ne_of_lt hj)

theorem consume_keeps (n : Nat) (ids : List Nat) (s : State) (hnodup : ids.Nodup)
    (hfull : ∀ i ∈ ids, (s.cells i).own = true → (s.cells i).data ≠ []) :
    (consume n ids s).pending.Sublist ids ∧ (consume n ids s).free = s.free ∧ (consume n ids s).next = s.next ∧
      (∀ i ∈ (consume n ids s).pending,
        ((consume n ids s).cells i).own = true → ((consume n ids s).cells i).data ≠ []) ∧
      (consume n ids s).sent ++ (consume n ids s).chainData (consume n ids s).pending =
        s.sent ++ s.chainData ids ∧
      (consume n ids s).chunked = s.chunked ∧ (consume n ids s).headerOnly = s.headerOnly := by
  induction ids generalizing n s with
  | nil => exact ⟨List.Sublist.refl _, rfl, rfl, by simp [consume], rfl, rfl, rfl⟩
  | cons i ids ih =>
      obtain ⟨hi, hids⟩ := List.nodup_cons.mp hnodup
      have hother : ∀ (c : Cell), ∀ j ∈ ids, setCell s.cells i c j = s.cells j := by
        intro c j hj
        have hne : j ≠ i := fun heq => hi (heq ▸ hj)
        exact setCell_other s.cells i j c hne
      rw [consume]
      dsimp only
      split
      · rename_i hlt
        refine ⟨List.Sublist.refl _, rfl, rfl, ?_, ?_, rfl, rfl⟩
        · intro j hj hown
          rcases List.mem_cons.mp hj with rfl | hj
          · show (setCell s.cells j _ j).data ≠ []
            rw [setCell_same]
            intro hnil
            have hlen := congrArg List.length hnil
            rw [List.length_drop, List.length_nil] at hlen
            omega
          · have hcell := hother { s.cells i with data := (s.cells i).data.drop n } j hj
            show (setCell s.cells i _ j).data ≠ []
            rw [hcell]
            apply hfull j (List.mem_cons_of_mem _ hj)
            rw [← hcell]
            exact hown
        · have hrest := chainData_congr s (s.set i { s.cells i with data := (s.cells i).data.drop n }) ids
            (hother _)
          simp only [State.chainData, List.flatMap_cons, State.set] at hrest ⊢
          rw [hrest, setCell_same, List.append_assoc, ← List.append_assoc (List.take n _),
            List.take_append_drop]
      · rename_i hge
        have hfull' : ∀ j ∈ ids,
            (setCell s.cells i { s.cells i with data := (s.cells i).data.drop n } j).own = true →
              (setCell s.cells i { s.cells i with data := (s.cells i).data.drop n } j).data ≠ [] := by
          intro j hj hown
          rw [hother _ j hj] at hown ⊢
          exact hfull j (List.mem_cons_of_mem _ hj) hown
        obtain ⟨hsub, hfree, hnext, hpending, hsent, hchunked, hheader⟩ := ih (n - (s.cells i).data.length)
          { s.set i { s.cells i with data := (s.cells i).data.drop n } with
            sent := s.sent ++ (s.cells i).data.take n } hids hfull'
        refine ⟨hsub.cons i, hfree, hnext, hpending, ?_, hchunked, hheader⟩
        rw [hsent]
        have hrest := chainData_congr s (s.set i { s.cells i with data := (s.cells i).data.drop n }) ids
          (hother _)
        have htake : (s.cells i).data.take n = (s.cells i).data := List.take_of_length_le (by omega)
        simp only [State.chainData, List.flatMap_cons, State.set] at hrest ⊢
        rw [hrest, htake, List.append_assoc]

theorem consume_busy (n : Nat) (ids : List Nat) (s : State) : (consume n ids s).busy = s.busy := by
  induction ids generalizing n s with
  | nil => rfl
  | cons i ids ih =>
      rw [consume]
      dsimp only
      split
      · rfl
      · rw [ih]
        rfl

-- The chain goes to the next filters, and they consume some of what they hold.
theorem nextBodyFilter_building (h : Building s encoded held) (out : List Nat) (eaten : Nat)
    (hout : ∀ i, out.count i ≤ held.count i) (hfull : ∀ i ∈ out, (s.cells i).own = true → (s.cells i).data ≠ []) :
    Building { nextBodyFilter s out eaten with busy := s.busy ++ out } (encoded ++ s.chainData out) [] := by
  have hheld : ∀ i ∈ out, i ∈ held := by
    intro i hi
    have hcount := hout i
    have hpos := List.count_pos_iff.mpr hi
    exact List.count_pos_iff.mp (by omega)
  have hnodup : (s.pending ++ out).Nodup := by
    refine List.nodup_append.mpr ⟨h.pendingNodup, ?_, ?_⟩
    · apply List.nodup_iff_count_le_one.mpr
      intro i
      have honce := h.once i
      have hcount := hout i
      omega
    · intro i hi j hj heq
      exact h.heldNotPending j (hheld j hj) (heq ▸ hi)
  have hall : ∀ i ∈ s.pending ++ out, (s.cells i).own = true → (s.cells i).data ≠ [] := by
    intro i hi
    rcases List.mem_append.mp hi with hi | hi
    · exact h.pendingFull i hi
    · exact hfull i hi
  have hoff : ∀ i ∈ s.free, i ∉ s.pending ++ out := by
    intro i hi hmem
    rcases List.mem_append.mp hmem with hmem | hmem
    · exact h.freeNotPending i hi hmem
    · have honce := h.once i
      have hfree := List.count_pos_iff.mpr hi
      have hhand := List.count_pos_iff.mpr (hheld i hmem)
      omega
  obtain ⟨hsub, hfree, hnext, hpending, hsent, hchunked, hheader⟩ := consume_keeps eaten (s.pending ++ out) s hnodup hall
  have hlt : ∀ i ∈ s.pending ++ out, i < s.next := by
    intro i hi
    rcases List.mem_append.mp hi with hi | hi
    · exact h.pendingLt i hi
    · exact h.heldLt i (hheld i hi)
  refine ⟨?_, hnodup.sublist hsub, by simp, ?_, by simp, ?_, ?_, ?_, hpending, ?_, hchunked ▸ h.active.1,
    hheader ▸ h.active.2⟩
  · intro i
    have honce := h.once i
    have hcount := hout i
    show List.count i [] + (nextBodyFilter s out eaten).free.count i + (s.busy ++ out).count i ≤ 1
    rw [nextBodyFilter, hfree, List.count_append, List.count_nil]
    omega
  · intro i hi
    rw [show (nextBodyFilter s out eaten).free = s.free from hfree] at hi
    exact fun hmem => hoff i hi (hsub.subset hmem)
  · intro i hi
    rw [show (nextBodyFilter s out eaten).free = s.free from hfree] at hi
    show i < (nextBodyFilter s out eaten).next
    rw [nextBodyFilter, hnext]
    exact h.freeLt i hi
  · intro i hi
    show i < (nextBodyFilter s out eaten).next
    rw [nextBodyFilter, hnext]
    rcases List.mem_append.mp hi with hi | hi
    · exact h.busyLt i hi
    · exact h.heldLt i (hheld i hi)
  · intro i hi
    show i < (nextBodyFilter s out eaten).next
    rw [nextBodyFilter, hnext]
    exact hlt i (hsub.subset hi)
  · show (nextBodyFilter s out eaten).sent ++
      (nextBodyFilter s out eaten).chainData (nextBodyFilter s out eaten).pending = encoded ++ s.chainData out
    rw [nextBodyFilter, hsent, ← h.conserved, List.append_assoc]
    congr 1
    exact List.flatMap_append

-- Only bufs that have been consumed come back to the free ones.
theorem recycle_building (busy : List Nat) (h : Building { s with busy := busy } encoded []) :
    Building (recycle busy s) encoded [] := by
  induction busy generalizing s with
  | nil => exact h
  | cons i busy ih =>
      have hi : i ∈ i :: busy := List.mem_cons_self
      rw [recycle]
      split
      · exact h
      · rename_i hzero
        have hnil : (s.cells i).data = [] := by
          rw [← List.length_eq_zero_iff]
          exact Decidable.not_not.mp hzero
        split
        · apply ih
          refine ⟨?_, h.pendingNodup, by simp, h.freeNotPending, by simp, h.freeLt, ?_, h.pendingLt,
            h.pendingFull, h.conserved, h.active⟩
          · intro j
            have honce : List.count j [] + s.free.count j + (i :: busy).count j ≤ 1 := h.once j
            show List.count j [] + s.free.count j + busy.count j ≤ 1
            rw [List.count_cons] at honce
            omega
          · exact fun j hj => h.busyLt j (List.mem_cons_of_mem _ hj)
        · rename_i hown
          have hsame : s.set i { s.cells i with data := [] } = s := by
            have hcell : { s.cells i with data := [] } = s.cells i := by rw [← hnil]
            have hcells : setCell s.cells i (s.cells i) = s.cells := by
              funext j
              by_cases hj : j = i
              · rw [hj, setCell_same]
              · rw [setCell_other s.cells i j _ hj]
            rw [hcell, State.set, hcells]
          rw [hsame]
          apply ih
          have hnot : i ∉ s.pending := by
            intro hmem
            exact h.pendingFull i hmem (by simpa using hown) hnil
          refine ⟨?_, h.pendingNodup, by simp, ?_, by simp, ?_, ?_, h.pendingLt, h.pendingFull, h.conserved, h.active⟩
          · intro j
            have honce : List.count j [] + s.free.count j + (i :: busy).count j ≤ 1 := h.once j
            show List.count j [] + (i :: s.free).count j + busy.count j ≤ 1
            simp only [List.count_cons] at honce ⊢
            omega
          · intro j hj
            rcases List.mem_cons.mp hj with rfl | hj
            · exact hnot
            · exact h.freeNotPending j hj
          · intro j hj
            rcases List.mem_cons.mp hj with rfl | hj
            · exact h.busyLt j hi
            · exact h.freeLt j hj
          · exact fun j hj => h.busyLt j (List.mem_cons_of_mem _ hj)

-- A free buf is taken and filled.
theorem fill_building (h : Building s encoded held) (fill : Cell → Cell) :
    let taken := getFreeBuf s
    Building (taken.2.set taken.1 (fill (taken.2.cells taken.1))) encoded (taken.1 :: held) ∧
      ∀ j ∈ held, (taken.2.set taken.1 (fill (taken.2.cells taken.1))).cells j = s.cells j := by
  intro taken
  obtain ⟨hbuilding, hsame⟩ := getFreeBuf_building h
  have hmem : taken.1 ∈ taken.1 :: held := List.mem_cons_self
  refine ⟨hbuilding.setCell taken.1 _ (hbuilding.heldNotPending _ hmem), ?_⟩
  intro j hj
  have hne : j ≠ taken.1 := by
    intro heq
    have honce := hbuilding.once j
    have hpos := List.count_pos_iff.mpr hj
    rw [show (getFreeBuf s).1 = j from heq.symm, List.count_cons_self] at honce
    omega
  rw [← hsame j hj]
  exact setCell_other taken.2.cells taken.1 j _ hne

theorem addSize_building (h : Building s encoded held) (size : Nat) :
    Building (addSize s size).2 encoded ((addSize s size).1 :: held) ∧
      ((addSize s size).2.cells (addSize s size).1).data = sizeLine size ∧
      ∀ j ∈ held, (addSize s size).2.cells j = s.cells j := by
  obtain ⟨hbuilding, hsame⟩ := fill_building h fun c =>
    { c with data := sizeLine size, started := true, own := true, memory := false, temporary := true }
  exact ⟨hbuilding, congrArg Cell.data (setCell_same _ _ _), hsame⟩

theorem addText_building (h : Building s encoded held) (text : Bytes) (lastBuf : Bool) :
    Building (addText s text lastBuf).2 encoded ((addText s text lastBuf).1 :: held) ∧
      ((addText s text lastBuf).2.cells (addText s text lastBuf).1).data = text ∧
      ∀ j ∈ held, (addText s text lastBuf).2.cells j = s.cells j := by
  obtain ⟨hbuilding, hsame⟩ := fill_building h fun c =>
    { c with
      data := text
      own := true
      temporary := false
      memory := true
      lastBuf := if lastBuf then true else c.lastBuf }
  exact ⟨hbuilding, congrArg Cell.data (setCell_same _ _ _), hsame⟩

end

-- A buf that comes in: it is not one of the filter's, and without a place it has no data.
structure Cell.Wf (c : Cell) : Prop where
  own : c.own = false
  place : c.inMemory = false → c.inFile = false → c.data = []

def inputData (input : List Cell) : Bytes := input.flatMap Cell.data

-- ngx_buf_t last_buf of the last buf of a chain
def endsBody (input : List Cell) : Bool := (input.getLast?.map Cell.lastBuf).getD false

def trailer : Bytes := ngxString "0\r\n\r\n"

-- What a call adds to the body that goes out
def piece (data : Bytes) (last : Bool) : Bytes :=
  (if data = [] then [] else hexDigits data.length ++ crlf ++ data ++ crlf) ++ if last then trailer else []

section

variable {s : State} {encoded : Bytes}

theorem passed_data (ids : List Nat) (hwf : ∀ i ∈ ids, (s.cells i).Wf) :
    s.chainData (ids.filter fun i => passed (s.cells i)) = s.chainData ids := by
  induction ids with
  | nil => rfl
  | cons i ids ih =>
      have hrest := ih (fun j hj => hwf j (List.mem_cons_of_mem _ hj))
      simp only [State.chainData] at hrest ⊢
      rw [List.filter_cons, List.flatMap_cons]
      split
      · rw [List.flatMap_cons, hrest]
      · rename_i hpassed
        simp only [passed, Bool.or_eq_true, not_or, Bool.not_eq_true] at hpassed
        rw [hrest, (hwf i List.mem_cons_self).place hpassed.1.2 hpassed.2, List.nil_append]

theorem chainData_length (ids : List Nat) :
    (ids.map fun i => (s.cells i).data.length).sum = (s.chainData ids).length := by
  rw [State.chainData, List.length_flatMap]

-- A chain that can go to the next filters, with what it carries
structure Ready (s : State) (encoded : Bytes) (held out : List Nat) (carried : Bytes) : Prop where
  building : Building s encoded held
  held : ∀ i, out.count i ≤ held.count i
  full : ∀ i ∈ out, (s.cells i).own = true → (s.cells i).data ≠ []
  data : s.chainData out = carried

-- The input alone
theorem passed_ready (ids : List Nat) (h : Building s encoded ids.reverse) (hwf : ∀ i ∈ ids, (s.cells i).Wf) :
    Ready s encoded ids.reverse (ids.filter fun i => passed (s.cells i)) (s.chainData ids) := by
  refine ⟨h, ?_, ?_, passed_data ids hwf⟩
  · intro i
    rw [List.count_reverse]
    exact List.filter_sublist.count_le i
  · intro i hi hown
    have hfalse := (hwf i (List.mem_filter.mp hi).1).own
    rw [hown] at hfalse
    exact absurd hfalse (by decide)

-- With the size in front
theorem Ready.size {held out : List Nat} {carried : Bytes} (h : Ready s encoded held out carried) (n : Nat)
    (hn : n < 2 ^ 63) :
    Ready (addSize s n).2 encoded ((addSize s n).1 :: held) ((addSize s n).1 :: out)
      (hexDigits n ++ crlf ++ carried) := by
  obtain ⟨hbuilding, hdata, hsame⟩ := addSize_building h.building n
  have hcells : ∀ i ∈ out, (addSize s n).2.cells i = s.cells i := by
    intro i hi
    have hcount := h.held i
    have hpos := List.count_pos_iff.mpr hi
    exact hsame i (List.count_pos_iff.mp (by omega))
  refine ⟨hbuilding, ?_, ?_, ?_⟩
  · intro i
    have hcount := h.held i
    rw [List.count_cons, List.count_cons]
    omega
  · intro i hi hown
    rcases List.mem_cons.mp hi with rfl | hi
    · rw [hdata, sizeLine_eq n hn]
      simp [crlf, ngxString]
    · rw [hcells i hi] at hown ⊢
      exact h.full i hi hown
  · have hrest := chainData_congr s (addSize s n).2 out hcells
    rw [h.data] at hrest
    rw [State.chainData, List.flatMap_cons, hdata, sizeLine_eq n hn]
    congr 1

-- With a text behind
theorem Ready.text {held out : List Nat} {carried : Bytes} (h : Ready s encoded held out carried) (text : Bytes)
    (lastBuf : Bool) (hne : text ≠ []) :
    Ready (addText s text lastBuf).2 encoded ((addText s text lastBuf).1 :: held)
      (out ++ [(addText s text lastBuf).1]) (carried ++ text) := by
  obtain ⟨hbuilding, hdata, hsame⟩ := addText_building h.building text lastBuf
  have hcells : ∀ i ∈ out, (addText s text lastBuf).2.cells i = s.cells i := by
    intro i hi
    have hcount := h.held i
    have hpos := List.count_pos_iff.mpr hi
    exact hsame i (List.count_pos_iff.mp (by omega))
  refine ⟨hbuilding, ?_, ?_, ?_⟩
  · intro i
    have hcount := h.held i
    rw [List.count_append, List.count_cons, List.count_cons, List.count_nil]
    omega
  · intro i hi hown
    rcases List.mem_append.mp hi with hi | hi
    · rw [hcells i hi] at hown ⊢
      exact h.full i hi hown
    · rw [List.mem_singleton.mp hi, hdata]
      exact hne
  · have hrest := chainData_congr s (addText s text lastBuf).2 out hcells
    rw [h.data] at hrest
    rw [← hrest, State.chainData, State.chainData, List.flatMap_append, List.flatMap_cons, List.flatMap_nil,
      List.append_nil, hdata]

-- cl->buf->last_buf = 0
theorem Ready.clear {held out : List Nat} {carried : Bytes} (h : Ready s encoded held out carried) (i : Nat)
    (hi : i ∈ held) :
    Ready (s.set i { s.cells i with lastBuf := false }) encoded held out carried := by
  have hcell : ∀ j, ((s.set i { s.cells i with lastBuf := false }).cells j).data = (s.cells j).data ∧
      ((s.set i { s.cells i with lastBuf := false }).cells j).own = (s.cells j).own := by
    intro j
    by_cases hj : j = i
    · rw [hj, show (s.set i _).cells i = _ from setCell_same _ _ _]
      exact ⟨rfl, rfl⟩
    · rw [show (s.set i _).cells j = _ from setCell_other _ _ _ _ hj]
      exact ⟨rfl, rfl⟩
  refine ⟨h.building.setCell i _ (h.building.heldNotPending i hi), h.held, ?_, ?_⟩
  · intro j hj hown
    rw [(hcell j).1]
    rw [(hcell j).2] at hown
    exact h.full j hj hown
  · rw [← h.data]
    simp only [State.chainData, hcell]

theorem buildChain_ready (ids : List Nat) (last : Nat) (hlast : ids.getLast? = some last)
    (h : Building s encoded ids.reverse) (hwf : ∀ i ∈ ids, (s.cells i).Wf)
    (hlt : (s.chainData ids).length < 2 ^ 63) :
    ∃ held, Ready (buildChain s ids).2 encoded held (buildChain s ids).1
      (piece (s.chainData ids) (s.cells last).lastBuf) := by
  have hmem : last ∈ ids.reverse := List.mem_reverse.mpr (List.mem_of_getLast? hlast)
  have hpassed := passed_ready ids h hwf
  rw [buildChain]
  dsimp only
  rw [chainData_length, hlast]
  generalize s.chainData ids = data at hpassed hlt ⊢
  by_cases hdata : data = []
  · have hzero : data.length = 0 := List.length_eq_zero_iff.mpr hdata
    have hpiece : ∀ b, piece data b = if b then trailer else [] := by
      intro b
      rw [piece, if_pos hdata, List.nil_append]
    rw [if_neg (by simpa using hzero), hpiece]
    dsimp only
    cases hbuf : (s.cells last).lastBuf with
    | true =>
        have hready := (hpassed.text trailer true (by decide)).clear last (List.mem_cons_of_mem _ hmem)
        rw [hdata, List.nil_append] at hready
        rw [if_pos rfl, if_pos rfl, if_pos hzero]
        exact ⟨_, hready⟩
    | false =>
        rw [hdata] at hpassed
        rw [if_neg Bool.false_ne_true, if_neg Bool.false_ne_true, if_neg (by omega)]
        exact ⟨_, hpassed⟩
  · have hpos : data.length ≠ 0 := by simpa using hdata
    have hsized := hpassed.size data.length hlt
    have hsame : (addSize s data.length).2.cells last = s.cells last :=
      (addSize_building h data.length).2.2 last hmem
    rw [if_pos hpos]
    dsimp only
    rw [hsame, piece, if_neg hdata]
    cases hbuf : (s.cells last).lastBuf with
    | true =>
        have hready := (hsized.text (ngxString "\r\n0\r\n\r\n") true (by decide)).clear last
          (List.mem_cons_of_mem _ (List.mem_cons_of_mem _ hmem))
        have htext : ngxString "\r\n0\r\n\r\n" = crlf ++ trailer := by decide
        rw [if_pos rfl, if_pos rfl, if_neg hpos]
        rw [htext, ← List.append_assoc] at hready
        rw [htext]
        exact ⟨_, hready⟩
    | false =>
        rw [if_neg Bool.false_ne_true, if_neg Bool.false_ne_true, if_pos (by omega), List.append_nil]
        exact ⟨_, hsized.text crlf false (by decide)⟩

theorem bodyFilter_building (h : Building s encoded []) (input : List Cell) (eaten : Nat)
    (hwf : ∀ c ∈ input, c.Wf) (hlt : (inputData input).length < 2 ^ 63) :
    Building (bodyFilter s input eaten) (encoded ++ piece (inputData input) (endsBody input)) [] := by
  obtain ⟨hadded, hcells, -⟩ := addInput_building h input
  rw [List.append_nil] at hadded
  rw [bodyFilter]
  dsimp only
  generalize (addInput s input).1 = s' at hadded hcells ⊢
  generalize (addInput s input).2 = ids at hadded hcells ⊢
  have hdata : s'.chainData ids = inputData input := by
    rw [← hcells, inputData, List.flatMap_map, State.chainData]
  have hids : ∀ i ∈ ids, (s'.cells i).Wf := fun i hi => hwf _ (hcells ▸ List.mem_map_of_mem hi)
  cases hlast : ids.getLast? with
  | none =>
      have hnil : ids = [] := List.getLast?_eq_none_iff.mp hlast
      have hinput : input = [] := by rw [← hcells, hnil, List.map_nil]
      have hnext := nextBodyFilter_building hadded [] eaten (by simp) (by simp)
      have hbusy : (nextBodyFilter s' [] eaten).busy = s'.busy ++ [] := by
        rw [nextBodyFilter, consume_busy, List.append_nil]
      rw [← hbusy] at hnext
      rw [hnil, hinput]
      exact hnext
  | some last =>
      have hinput : input.isEmpty = false := by
        rw [← hcells, List.isEmpty_eq_false_iff]
        intro hnil
        rw [List.map_eq_nil_iff.mp hnil] at hlast
        cases hlast
      have hends : (s'.cells last).lastBuf = endsBody input := by
        rw [endsBody, ← hcells, List.getLast?_map, hlast]
        rfl
      obtain ⟨held, hready⟩ := buildChain_ready ids last hlast hadded hids (hdata ▸ hlt)
      rw [hdata, hends] at hready
      have hnext := nextBodyFilter_building hready.building (buildChain s' ids).1 eaten hready.held hready.full
      have hbusy : (nextBodyFilter (buildChain s' ids).2 (buildChain s' ids).1 eaten).busy =
          (buildChain s' ids).2.busy := consume_busy _ _ _
      rw [hready.data, ← hbusy] at hnext
      rw [hinput, hadded.active.1, hadded.active.2, if_neg (by decide)]
      exact recycle_building _ hnext

end

theorem chunk_open {encoded decoded : Bytes} (h : ChunkedCoding.Open encoded decoded) (data : Bytes)
    (hlt : data.length < 2 ^ 63) : ChunkedCoding.Open (encoded ++ piece data false) (decoded ++ data) := by
  by_cases hdata : data = []
  · rw [piece, if_pos hdata, hdata]
    simpa using h
  · rw [piece, if_neg hdata, if_neg Bool.false_ne_true, List.append_nil]
    exact h.append _ _ (size_hexDigits data.length hlt) hdata

theorem piece_close {encoded decoded : Bytes} (h : ChunkedCoding.Open encoded decoded) (data : Bytes)
    (hlt : data.length < 2 ^ 63) : ChunkedCoding.Body (encoded ++ piece data true) (decoded ++ data) := by
  have hopen := chunk_open h data hlt
  have hclose := hopen.close [48] (by decide)
  have hpiece : piece data true = piece data false ++ trailer := by
    rw [piece, piece, if_pos rfl, if_neg Bool.false_ne_true, List.append_nil]
  rw [hpiece, ← List.append_assoc]
  exact hclose

def callsData (calls : List (List Cell × Nat)) : Bytes := calls.flatMap fun call => inputData call.1

-- No call before the last one ends the body, and then only NULL comes.
theorem runCalls_open {s : State} {encoded decoded : Bytes} (calls : List (List Cell × Nat))
    (h : Building s encoded []) (hopen : ChunkedCoding.Open encoded decoded)
    (hwf : ∀ call ∈ calls, ∀ c ∈ call.1, c.Wf) (hlt : ∀ call ∈ calls, (inputData call.1).length < 2 ^ 63)
    (hends : ∀ call ∈ calls, endsBody call.1 = false) :
    ∃ out, Building (runCalls s calls) out [] ∧ ChunkedCoding.Open out (decoded ++ callsData calls) := by
  induction calls generalizing s encoded decoded with
  | nil => exact ⟨encoded, h, by simpa [callsData] using hopen⟩
  | cons call calls ih =>
      have hmem : call ∈ call :: calls := List.mem_cons_self
      have hstep := bodyFilter_building h call.1 call.2 (hwf call hmem) (hlt call hmem)
      rw [hends call hmem] at hstep
      obtain ⟨out, hout, hmore⟩ := ih hstep (chunk_open hopen _ (hlt call hmem))
        (fun c hc => hwf c (List.mem_cons_of_mem _ hc)) (fun c hc => hlt c (List.mem_cons_of_mem _ hc))
        (fun c hc => hends c (List.mem_cons_of_mem _ hc))
      refine ⟨out, hout, ?_⟩
      rw [callsData, List.flatMap_cons, ← List.append_assoc]
      exact hmore

theorem runCalls_null {s : State} {encoded : Bytes} (eaten : List Nat) (h : Building s encoded []) :
    Building (runCalls s (eaten.map fun n => ([], n))) encoded [] := by
  induction eaten generalizing s with
  | nil => exact h
  | cons n eaten ih =>
      have hstep := bodyFilter_building h [] n (by simp) (by simp [inputData])
      have hnone : piece (inputData []) (endsBody []) = [] := rfl
      rw [hnone, List.append_nil] at hstep
      exact ih hstep

theorem initial_building (cells : Nat → Cell) (n : Nat) : Building (State.initial cells n) [] [] := by
  refine ⟨?_, List.nodup_nil, ?_, ?_, ?_, ?_, ?_, ?_, ?_, rfl, rfl, rfl⟩ <;> simp [State.initial]

-- What goes out is a body in chunks, and it decodes to what came in.
theorem runCalls_decodes (cells : Nat → Cell) (n : Nat) (calls : List (List Cell × Nat)) (final : List Cell)
    (eaten : Nat) (more : List Nat)
    (hwf : ∀ call ∈ calls, ∀ c ∈ call.1, c.Wf) (hlt : ∀ call ∈ calls, (inputData call.1).length < 2 ^ 63)
    (hends : ∀ call ∈ calls, endsBody call.1 = false)
    (hfinalWf : ∀ c ∈ final, c.Wf) (hfinalLt : (inputData final).length < 2 ^ 63) (hfinal : endsBody final = true) :
    let s := runCalls (State.initial cells n) (calls ++ (final, eaten) :: more.map fun n => ([], n))
    let body := s.sent ++ s.chainData s.pending
    ChunkedCoding.Body body (callsData calls ++ inputData final) ∧
      ∀ decoded, ChunkedCoding.Body body decoded → decoded = callsData calls ++ inputData final := by
  intro s body
  obtain ⟨out, hout, hopen⟩ :=
    runCalls_open calls (initial_building cells n) ChunkedCoding.open_nil hwf hlt hends
  have hstep := bodyFilter_building hout final eaten hfinalWf hfinalLt
  have hrun := runCalls_null more hstep
  have hs : s = runCalls (bodyFilter (runCalls (State.initial cells n) calls) final eaten)
      (more.map fun n => ([], n)) := by
    show runCalls _ _ = _
    rw [runCalls, List.foldl_append, List.foldl_cons]
    rfl
  rw [← hs, hfinal] at hrun
  have hbody : ChunkedCoding.Body body (callsData calls ++ inputData final) := by
    show ChunkedCoding.Body (s.sent ++ s.chainData s.pending) _
    rw [hrun.conserved]
    exact piece_close hopen _ hfinalLt
  exact ⟨hbody, fun decoded h => h.unique hbody⟩

def memoryBuf (data : Bytes) (lastBuf : Bool) : Cell := ⟨data, true, false, true, false, false, false, false, false, lastBuf⟩

theorem runCalls_decodes_two :
    let s := runCalls (State.initial (fun _ => Cell.empty) 0)
      ([([memoryBuf (ngxString "ab") false], 4), ([{ Cell.empty with flush := true }], 1)] ++
        ([memoryBuf (ngxString "c") true], 9) :: [5, 4].map fun n => ([], n))
    let body := s.sent ++ s.chainData s.pending
    ChunkedCoding.Body body (ngxString "abc") ∧ ∀ decoded, ChunkedCoding.Body body decoded → decoded = ngxString "abc" :=
  runCalls_decodes (fun _ => Cell.empty) 0
    [([memoryBuf (ngxString "ab") false], 4), ([{ Cell.empty with flush := true }], 1)]
    [memoryBuf (ngxString "c") true] 9 [5, 4]
    (by
      intro call hcall c hc
      rcases List.mem_cons.mp hcall with rfl | hcall
      · rw [List.mem_singleton.mp hc]
        exact ⟨rfl, by decide⟩
      · rw [List.mem_singleton.mp hcall] at hc
        rw [List.mem_singleton.mp hc]
        exact ⟨rfl, by decide⟩)
    (by decide) (by decide)
    (by
      intro c hc
      rw [List.mem_singleton.mp hc]
      exact ⟨rfl, by decide⟩)
    (by decide) (by decide)

example :
    let s := runCalls (State.initial (fun _ => Cell.empty) 0)
      [([memoryBuf (ngxString "ab") false], 4), ([memoryBuf (ngxString "c") true], 20)]
    s.sent = ngxString "2\r\nab\r\n1\r\nc\r\n0\r\n\r\n" := by decide

end Nginx.ChunkedFilter
