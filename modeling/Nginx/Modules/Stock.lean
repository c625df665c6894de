import Nginx.Core.Bytes

namespace Nginx.Stock

abbrev Addr := BitVec 64

-- The upstream buffer from pos to last, an object of the address space.
structure RecvBuf where
  pos : Addr
  bytes : Bytes
  fits : pos.toNat + bytes.length < 2 ^ 64

-- ',' or '"'
def isDelimiter (c : UInt8) : Bool := c = 44 || c = 34

section Scan

variable {σ : Type} (field : Nat → Addr → σ → Option σ)

-- The loop of mysubrequest_post_handler and mytest_subrequest_post_handler over the buffer;
-- field is what it does to the stock array at a delimiter, before count is incremented.
def scan : Bytes → Addr → Nat → σ → Option (Nat × σ)
  | [], _, count, stock => some (count, stock)
  | c :: rest, pos, count, stock => do
      let (count, stock) ←
        if isDelimiter c then (field count pos stock).map (count + 1, ·)
        else some (count, stock)
      if 6 < count then some (count, stock) else scan rest (pos + 1) count stock

-- The offsets at which delimiters occur.
def delimitersFrom : Bytes → Nat → List Nat
  | [], _ => []
  | c :: rest, i =>
      if isDelimiter c then i :: delimitersFrom rest (i + 1) else delimitersFrom rest (i + 1)

def delimiters (bytes : Bytes) : List Nat := delimitersFrom bytes 0

-- The same work, delimiter by delimiter.
def fields (pos : Addr) : List Nat → Nat → σ → Option (Nat × σ)
  | [], count, stock => some (count, stock)
  | d :: ds, count, stock => do
      let stock ← field count (pos + BitVec.ofNat 64 d) stock
      fields pos ds (count + 1) stock

theorem scan_eq_fields (bytes : Bytes) (pos : Addr) (i count : Nat) (stock : σ) (hc : count ≤ 6) :
    scan field bytes (pos + BitVec.ofNat 64 i) count stock =
      fields field pos ((delimitersFrom bytes i).take (7 - count)) count stock := by
  induction bytes generalizing i count stock with
  | nil => simp [scan, delimitersFrom, fields]
  | cons c rest ih =>
      have hpos : pos + BitVec.ofNat 64 i + 1#64 = pos + BitVec.ofNat 64 (i + 1) := by
        rw [BitVec.ofNat_add, BitVec.add_assoc]
      by_cases hd : isDelimiter c = true
      · have htake : 7 - count = (7 - (count + 1)) + 1 := by omega
        simp only [scan, delimitersFrom, hd, if_true, htake, List.take_succ_cons, fields]
        cases hf : field count (pos + BitVec.ofNat 64 i) stock with
        | none => rfl
        | some next =>
            by_cases hlast : 6 < count + 1
            · -- the seventh delimiter ends the loop
              have hzero : 7 - (count + 1) = 0 := by omega
              simp [hlast, hzero, fields]
            · simpa [hlast, hpos] using ih (i + 1) (count + 1) next (by omega)
      · have hlast : ¬6 < count := by omega
        simpa [scan, delimitersFrom, hd, hlast, hpos] using ih (i + 1) count stock hc

theorem scan_buf (buf : RecvBuf) (stock : σ) :
    scan field buf.bytes buf.pos 0 stock =
      fields field buf.pos ((delimiters buf.bytes).take 7) 0 stock := by
  have h := scan_eq_fields field buf.bytes buf.pos 0 0 stock (by omega)
  simpa [delimiters] using h

theorem fields_append (pos : Addr) (ds es : List Nat) (count : Nat) (stock : σ) :
    fields field pos (ds ++ es) count stock =
      (fields field pos ds count stock).bind fun (count, stock) => fields field pos es count stock := by
  induction ds generalizing count stock with
  | nil => rfl
  | cons d ds ih =>
      simp only [List.cons_append, fields]
      cases field count (pos + BitVec.ofNat 64 d) stock with
      | none => rfl
      | some next => exact ih _ next

-- What one delimiter preserves, the whole loop preserves, as long as it stays within the array.
theorem fields_invariant (pos : Addr) (ds : List Nat) (Inv : Nat → σ → Prop)
    (hstep : ∀ n (hn : n < ds.length) stock, Inv n stock →
      ∃ next, field n (pos + BitVec.ofNat 64 ds[n]) stock = some next ∧ Inv (n + 1) next)
    (stock : σ) (h0 : Inv 0 stock) :
    ∃ last, fields field pos ds 0 stock = some (ds.length, last) ∧ Inv ds.length last := by
  have hrun : ∀ n ≤ ds.length,
      ∃ mid, fields field pos (ds.take n) 0 stock = some (n, mid) ∧ Inv n mid := by
    intro n
    induction n with
    | zero => exact fun _ => ⟨stock, rfl, h0⟩
    | succ n ih =>
        intro hn
        obtain ⟨mid, hmid, hinv⟩ := ih (by omega)
        obtain ⟨next, hnext, hinv'⟩ := hstep n hn mid hinv
        refine ⟨next, ?_, hinv'⟩
        rw [List.take_succ_eq_append_getElem hn, fields_append, hmid]
        simp [fields, hnext]
  obtain ⟨last, hlast, hinv⟩ := hrun ds.length (Nat.le_refl _)
  exact ⟨last, by rwa [List.take_length] at hlast, hinv⟩

-- A loop that fails at its first delimiters fails.
theorem fields_eq_none (pos : Addr) (ds : List Nat) (n : Nat) (hn : n < ds.length) (stock mid : σ)
    (hmid : fields field pos (ds.take n) 0 stock = some (n, mid))
    (hfail : field n (pos + BitVec.ofNat 64 ds[n]) mid = none) :
    fields field pos ds 0 stock = none := by
  have hsplit : ds = ds.take n ++ ds[n] :: ds.drop (n + 1) := by
    rw [List.getElem_cons_drop, List.take_append_drop]
  rw [hsplit, fields_append, hmid]
  simp [fields, hfail]

end Scan

theorem delimitersFrom_bounds (bytes : Bytes) (i : Nat) :
    ∀ d ∈ delimitersFrom bytes i, i ≤ d ∧ d < i + bytes.length := by
  induction bytes generalizing i with
  | nil => simp [delimitersFrom]
  | cons c rest ih =>
      intro d hd
      have hrest : d ∈ delimitersFrom rest (i + 1) → i ≤ d ∧ d < i + (c :: rest).length := by
        intro h
        have := ih (i + 1) d h
        simp only [List.length_cons]
        omega
      unfold delimitersFrom at hd
      split at hd
      · rcases List.mem_cons.mp hd with rfl | hd
        · simp
        · exact hrest hd
      · exact hrest hd

theorem delimitersFrom_sorted (bytes : Bytes) (i : Nat) :
    (delimitersFrom bytes i).Pairwise (· < ·) := by
  induction bytes generalizing i with
  | nil => simp [delimitersFrom]
  | cons c rest ih =>
      unfold delimitersFrom
      split
      · refine List.pairwise_cons.mpr ⟨?_, ih (i + 1)⟩
        intro d hd
        have := delimitersFrom_bounds rest (i + 1) d hd
        omega
      · exact ih (i + 1)

theorem delimiters_lt (bytes : Bytes) (n : Nat) (hn : n < (delimiters bytes).length) :
    (delimiters bytes)[n] < bytes.length := by
  have := (delimitersFrom_bounds bytes 0 _ (List.getElem_mem hn)).2
  simpa using this

theorem delimiters_step (bytes : Bytes) (n : Nat) (hn : n + 1 < (delimiters bytes).length) :
    (delimiters bytes)[n] < (delimiters bytes)[n + 1] := by
  have hsorted : (delimiters bytes).Pairwise (· < ·) := delimitersFrom_sorted bytes 0
  exact List.pairwise_iff_getElem.mp hsorted n (n + 1) (by omega) hn (by omega)

-- The address of an offset of the buffer, and the distance between two of them.
theorem toNat_addr (buf : RecvBuf) (i : Nat) (hi : i ≤ buf.bytes.length) :
    (buf.pos + BitVec.ofNat 64 i).toNat = buf.pos.toNat + i := by
  have := buf.fits
  rw [BitVec.toNat_add, BitVec.toNat_ofNat, Nat.mod_eq_of_lt (by omega : i < 2 ^ 64),
    Nat.mod_eq_of_lt (by omega)]

-- The address of the delimiter with index i.
def mark (buf : RecvBuf) (i : Nat) : Addr :=
  buf.pos + BitVec.ofNat 64 ((delimiters buf.bytes).getD i 0)

theorem mark_eq (buf : RecvBuf) (i : Nat) (hi : i < (delimiters buf.bytes).length) :
    mark buf i = buf.pos + BitVec.ofNat 64 (delimiters buf.bytes)[i] := by
  rw [mark, List.getD_eq_getElem?_getD, List.getElem?_eq_getElem hi, Option.getD_some]

theorem toNat_mark (buf : RecvBuf) (i : Nat) (hi : i < (delimiters buf.bytes).length) :
    (mark buf i).toNat = buf.pos.toNat + (delimiters buf.bytes)[i] := by
  rw [mark_eq buf i hi, toNat_addr buf _ (Nat.le_of_lt (delimiters_lt buf.bytes i hi))]

section Runs

variable {σ : Type} (field : Nat → Addr → σ → Option σ) (buf : RecvBuf) (Inv : Nat → σ → Prop)
  (hstep : ∀ n stock, n < 6 → Inv n stock →
    ∃ next, field n (mark buf n) stock = some next ∧ Inv (n + 1) next)
  (init : σ) (h0 : Inv 0 init)

include hstep h0

theorem fields_take_invariant (n : Nat) (h6 : n ≤ 6) (hn : n ≤ (delimiters buf.bytes).length) :
    ∃ last, fields field buf.pos ((delimiters buf.bytes).take n) 0 init = some (n, last) ∧
      Inv n last := by
  have hlen : ((delimiters buf.bytes).take n).length = n := by simp [hn]
  have hrun := fields_invariant field buf.pos ((delimiters buf.bytes).take n) Inv
    (fun k hk stock hinv => by
      rw [hlen] at hk
      rw [List.getElem_take, ← mark_eq buf k (by omega)]
      exact hstep k stock (by omega) hinv) init h0
  rwa [hlen] at hrun

-- A body with at most six delimiters is scanned to its end.
theorem scan_invariant (h6 : (delimiters buf.bytes).length ≤ 6) :
    ∃ last, scan field buf.bytes buf.pos 0 init = some ((delimiters buf.bytes).length, last) ∧
      Inv (delimiters buf.bytes).length last := by
  obtain ⟨last, hlast, hinv⟩ :=
    fields_take_invariant field buf Inv hstep init h0 _ h6 (Nat.le_refl _)
  rw [List.take_length] at hlast
  refine ⟨last, ?_, hinv⟩
  rwa [scan_buf, List.take_of_length_le (by omega)]

-- A seventh delimiter is handled before the loop is left.
theorem scan_overrun (hfail : ∀ pos stock, field 6 pos stock = none)
    (h : 6 < (delimiters buf.bytes).length) : scan field buf.bytes buf.pos 0 init = none := by
  obtain ⟨last, hlast, -⟩ :=
    fields_take_invariant field buf Inv hstep init h0 6 (Nat.le_refl _) (by omega)
  rw [scan_buf]
  apply fields_eq_none field buf.pos _ 6 (by simp; omega) init last
  · rwa [List.take_take, Nat.min_eq_left (by omega)]
  · exact hfail _ _

end Runs

end Nginx.Stock
