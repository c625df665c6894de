import Nginx.Modules.Stock

namespace Nginx.Mysubrequest

open Nginx.Stock

-- An ngx_str_t of ngx_http_mysubrequest_ctx_t.
structure Str where
  len : BitVec 64
  data : Addr
deriving DecidableEq

-- The stock array, six elements wide. What ngx_palloc leaves in it is arbitrary.
abbrev Stock := Nat → Str

-- An access of stock[i]; none is an access outside the array.
def read (stock : Stock) (i : Nat) : Option Str := if i < 6 then some (stock i) else none

def write (stock : Stock) (i : Nat) (v : Str) : Option Stock :=
  if i < 6 then some (Function.update stock i v) else none

-- if (count_num > 0) stock[count_num-1].len = pos - stock[count_num].data;
-- ++count_num; stock[count_num-1].data = pos + 1;
def field (count : Nat) (pos : Addr) (stock : Stock) : Option Stock := do
  let stock ←
    if 0 < count then do
      let next ← read stock count
      write stock (count - 1) { stock (count - 1) with len := pos - next.data }
    else some stock
  write stock count { stock count with data := pos + 1 }

-- mysubrequest_post_handler: the status handed to the parent and its context afterwards.
def postHandler (status : Nat) (buf : RecvBuf) (stock : Stock) : Option (Nat × Stock) :=
  if status = 200 then (scan field buf.bytes buf.pos 0 stock).map fun (_, stock) => (status, stock)
  else some (status, stock)

-- Every element whose closing delimiter was seen is the text between its two delimiters.
def Extracted (buf : RecvBuf) (stock : Stock) : Prop :=
  ∀ i (h : i + 1 < (delimiters buf.bytes).length),
    (stock i).data.toNat = buf.pos.toNat + (delimiters buf.bytes)[i] + 1 ∧
    (stock i).len.toNat = (delimiters buf.bytes)[i + 1] - ((delimiters buf.bytes)[i] + 1)

-- The state after n delimiters: n starts are written, and each length before the last start was
-- taken from the start that the next element held at the beginning.
def Filled (buf : RecvBuf) (init : Stock) (n : Nat) (stock : Stock) : Prop :=
  ∀ i, (stock i).data = (if i < n then mark buf i + 1 else (init i).data) ∧
    (stock i).len = (if i + 1 < n then mark buf (i + 1) - (init (i + 1)).data else (init i).len)

theorem filled_step (buf : RecvBuf) (init stock : Stock) (n : Nat) (h6 : n < 6)
    (hf : Filled buf init n stock) :
    ∃ next, field n (mark buf n) stock = some next ∧ Filled buf init (n + 1) next := by
  cases n with
  | zero =>
      refine ⟨_, by simp [field, write]; rfl, fun i => ?_⟩
      obtain ⟨hd, hl⟩ := hf i
      by_cases hi : i = 0
      · subst hi
        simpa using hl
      · simpa [hi] using And.intro hd hl
  | succ n =>
      have hn := (hf (n + 1)).1
      simp only [Nat.lt_irrefl, if_false] at hn
      refine ⟨_, by simp [field, read, write, h6, show n < 6 by omega]; rfl, fun i => ?_⟩
      obtain ⟨hd, hl⟩ := hf i
      rcases Nat.lt_trichotomy i n with hi | hi | hi
      · have h1 : i ≠ n := by omega
        have h2 : i ≠ n + 1 := by omega
        simp [h1, h2, hd, hl, show i < n + 1 by omega, show i < n + 1 + 1 by omega, hi, Nat.le_of_lt hi]
      · subst hi
        simp [hd, hn, show ¬i + 1 + 1 ≤ i by omega]
      · by_cases h2 : i = n + 1
        · subst h2
          simp [hl, show ¬n + 1 < n by omega]
        · simp [h2, show i ≠ n by omega, hd, hl, show ¬i < n + 1 by omega,
            show ¬i < n + 1 + 1 by omega, show ¬i < n by omega, hi]

theorem filled_zero (buf : RecvBuf) (init : Stock) : Filled buf init 0 init := fun i => by simp

-- Only a start that was already in place before the scan gives the right length.
theorem extracted_iff (buf : RecvBuf) (init last : Stock)
    (hf : Filled buf init (delimiters buf.bytes).length last) :
    Extracted buf last ↔
      ∀ i (h : i + 1 < (delimiters buf.bytes).length),
        (init (i + 1)).data.toNat = buf.pos.toNat + (delimiters buf.bytes)[i] + 1 := by
  refine forall_congr' fun i => forall_congr' fun h => ?_
  have hd := (hf i).1
  have hl := (hf i).2
  have hfit := buf.fits
  have hi := delimiters_lt buf.bytes i (by omega)
  have hj := delimiters_lt buf.bytes (i + 1) h
  have hstep := delimiters_step buf.bytes i h
  have hmi := toNat_mark buf i (by omega)
  have hmj := toNat_mark buf (i + 1) h
  rw [if_pos (by omega : i < (delimiters buf.bytes).length)] at hd
  rw [if_pos h] at hl
  have hdata : (last i).data.toNat = buf.pos.toNat + (delimiters buf.bytes)[i] + 1 := by
    rw [hd, BitVec.toNat_add, hmi]
    simp
    omega
  have hlen : (last i).len.toNat =
      (2 ^ 64 - (init (i + 1)).data.toNat + (buf.pos.toNat + (delimiters buf.bytes)[i + 1])) % 2 ^ 64 := by
    rw [hl, BitVec.toNat_sub, hmj]
  have hword := (init (i + 1)).data.isLt
  rw [hdata, hlen]
  omega

theorem postHandler_extracts_iff (buf : RecvBuf) (init : Stock) :
    (∃ last, postHandler 200 buf init = some (200, last) ∧ Extracted buf last) ↔
      (delimiters buf.bytes).length ≤ 6 ∧
        ∀ i (h : i + 1 < (delimiters buf.bytes).length),
          (init (i + 1)).data.toNat = buf.pos.toNat + (delimiters buf.bytes)[i] + 1 := by
  by_cases h6 : (delimiters buf.bytes).length ≤ 6
  · obtain ⟨last, hlast, hf⟩ := scan_invariant field buf (Filled buf init)
      (fun n stock hn hf => filled_step buf init stock n hn hf) init (filled_zero buf init) h6
    have hpost : postHandler 200 buf init = some (200, last) := by simp [postHandler, hlast]
    simp only [hpost, Option.some.injEq, Prod.mk.injEq, true_and, exists_eq_left', h6]
    exact extracted_iff buf init last hf
  · have hscan := scan_overrun field buf (Filled buf init)
      (fun n stock hn hf => filled_step buf init stock n hn hf) init (filled_zero buf init)
      (fun pos stock => by simp [field, read]) (Nat.lt_of_not_le h6)
    have hpost : postHandler 200 buf init = none := by simp [postHandler, hscan]
    simp [hpost, h6]

-- Zeroed memory and the body ,a, at address 4096: the length written to stock[0] is the address
-- of the second comma instead of 1.
theorem zeroed_stock_not_extracted :
    let buf : RecvBuf := ⟨4096, ngxString ",a,", by decide⟩
    let init : Stock := fun _ => ⟨0, 0⟩
    (∃ last, postHandler 200 buf init = some (200, last) ∧ (last 0).len = 4098) ∧
      ¬∃ last, postHandler 200 buf init = some (200, last) ∧ Extracted buf last := by
  intro buf init
  have hpost : ∃ last, postHandler 200 buf init = some (200, last) ∧ (last 0).len = 4098 :=
    ⟨_, rfl, by decide⟩
  refine ⟨hpost, ?_⟩
  rintro ⟨last, hlast, hext⟩
  obtain ⟨last', hlast', hlen⟩ := hpost
  rw [hlast] at hlast'
  obtain rfl : last = last' := (Prod.mk.inj (Option.some.inj hlast')).2
  have h := (hext 0 (by decide)).2
  rw [hlen] at h
  exact absurd h (by decide)

end Nginx.Mysubrequest
