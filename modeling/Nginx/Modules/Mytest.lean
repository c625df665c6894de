import Nginx.Core.Printf
import Nginx.Modules.Stock

namespace Nginx.Mytest

open Nginx.Stock

-- An ngx_str_t of ngx_http_mytest_ctx_t; none is a field that was not assigned.
structure Str where
  len : Option (BitVec 64) := none
  data : Option Addr := none

-- The stock array, six elements wide, as ngx_palloc leaves it and as it is filled.
abbrev Stock := Nat → Str

def uninitialised : Stock := fun _ => {}

-- An access of stock[i]; none is an access outside the array.
def read (stock : Stock) (i : Nat) : Option Str := if i < 6 then some (stock i) else none

def write (stock : Stock) (i : Nat) (v : Str) : Option Stock :=
  if i < 6 then some (Function.update stock i v) else none

-- if (flag > 0) stock[flag - 1].len = pos - stock[flag - 1].data;
-- flag++; stock[flag - 1].data = pos + 1;
def field (flag : Nat) (pos : Addr) (stock : Stock) : Option Stock := do
  let stock ←
    if 0 < flag then do
      let prev ← read stock (flag - 1)
      let data ← prev.data
      write stock (flag - 1) { prev with len := some (pos - data) }
    else some stock
  write stock flag { stock flag with data := some (pos + 1) }

-- mytest_subrequest_post_handler: the status handed to the parent and its context afterwards.
def subrequestPostHandler (status : Nat) (buf : RecvBuf) (stock : Stock) : Option (Nat × Stock) :=
  if status = 200 then (scan field buf.bytes buf.pos 0 stock).map fun (_, stock) => (status, stock)
  else some (status, stock)

-- The len bytes at data, when they lie in the upstream buffer.
def load (buf : RecvBuf) (data : Addr) (len : BitVec 64) : Option Bytes :=
  let off := data.toNat - buf.pos.toNat
  if buf.pos.toNat ≤ data.toNat ∧ off + len.toNat ≤ buf.bytes.length then
    some ((buf.bytes.drop off).take len.toNat)
  else none

-- The bytes of a stock element that is read as an ngx_str_t.
def text (buf : RecvBuf) (stock : Stock) (i : Nat) : Option Bytes := do
  let s ← read stock i
  load buf (← s.data) (← s.len)

def outputFormat : Bytes := ngxString "stock[%V],Today current price: %V, volumn: %V"

inductive Response where
  | finalize (status : Nat)
  | reply (contentLengthN : Int) (written : Bytes)

-- mytest_post_handler. bodylen is an int; ngx_create_temp_buf and ngx_snprintf take it as a
-- size_t. The buffer is not checked, so a failed allocation dereferences NULL (none).
def postHandler (tempBuf : Nat → Bool) (buf : RecvBuf) (status : Nat) (stock : Stock) :
    Option Response := do
  if status ≠ 200 then some (.finalize status)
  else
    let f0 ← text buf stock 0
    let f1 ← text buf stock 1
    let f4 ← text buf stock 4
    let bodylen := toInt32 (outputFormat.length + f0.length + f1.length + f4.length - 6)
    if tempBuf (toSize bodylen) then
      let written ← Printf.snprintf (toSize bodylen) outputFormat [.str f0, .str f1, .str f4]
      some (.reply bodylen written)
    else none

-- The subrequest ends with the upstream body, then the parent request is resumed.
def respond (tempBuf : Nat → Bool) (buf : RecvBuf) (status : Nat) : Option Response := do
  let (status, stock) ← subrequestPostHandler status buf uninitialised
  postHandler tempBuf buf status stock

-- The text between the delimiters with index i and i + 1.
def slice (buf : RecvBuf) (i : Nat) : Bytes :=
  (buf.bytes.drop ((delimiters buf.bytes).getD i 0 + 1)).take
    ((delimiters buf.bytes).getD (i + 1) 0 - ((delimiters buf.bytes).getD i 0 + 1))

def expected (buf : RecvBuf) : Bytes :=
  ngxString "stock[" ++ slice buf 0 ++ ngxString "],Today current price: " ++ slice buf 1 ++
    ngxString ", volumn: " ++ slice buf 4

-- After n delimiters n starts and n - 1 lengths are assigned.
def Filled (buf : RecvBuf) (n : Nat) (stock : Stock) : Prop :=
  ∀ i, (stock i).data = (if i < n then some (mark buf i + 1) else none) ∧
    (stock i).len = (if i + 1 < n then some (mark buf (i + 1) - (mark buf i + 1)) else none)

theorem filled_step (buf : RecvBuf) (stock : Stock) (n : Nat) (h6 : n < 6)
    (hf : Filled buf n stock) :
    ∃ next, field n (mark buf n) stock = some next ∧ Filled buf (n + 1) next := by
  cases n with
  | zero =>
      refine ⟨_, by simp [field, write]; rfl, fun i => ?_⟩
      obtain ⟨hd, hl⟩ := hf i
      by_cases hi : i = 0
      · subst hi
        simpa using hl
      · simpa [hi] using And.intro hd hl
  | succ n =>
      have hprev := (hf n).1
      rw [if_pos (Nat.lt_succ_self n)] at hprev
      refine ⟨_, by simp [field, read, write, h6, hprev, show n < 6 by omega]; rfl, fun i => ?_⟩
      obtain ⟨hd, hl⟩ := hf i
      rcases Nat.lt_trichotomy i n with hi | hi | hi
      · have h1 : i ≠ n := by omega
        have h2 : i ≠ n + 1 := by omega
        simp [h1, h2, hd, hl, show i < n + 1 by omega, show i < n + 1 + 1 by omega, hi, Nat.le_of_lt hi]
      · subst hi
        simp [show i < i + 1 + 1 by omega]
      · by_cases h2 : i = n + 1
        · subst h2
          simp [hl, show ¬n + 1 < n by omega]
        · simp [h2, show i ≠ n by omega, hd, hl, show ¬i < n + 1 by omega,
            show ¬i < n + 1 + 1 by omega, show ¬i < n by omega, hi]

theorem filled_zero (buf : RecvBuf) : Filled buf 0 uninitialised := fun i => by
  simp [uninitialised]

theorem load_eq (buf : RecvBuf) (data : Addr) (len : BitVec 64) (off n : Nat)
    (hd : data.toNat = buf.pos.toNat + off) (hl : len.toNat = n) (hin : off + n ≤ buf.bytes.length) :
    load buf data len = some ((buf.bytes.drop off).take n) := by
  have hoff : data.toNat - buf.pos.toNat = off := by omega
  simp only [load, hoff, hl]
  exact if_pos ⟨by omega, hin⟩

-- A closed element is the slice between its delimiters.
theorem text_filled (buf : RecvBuf) (stock : Stock) (hf : Filled buf (delimiters buf.bytes).length stock)
    (i : Nat) (h6 : i < 6) (hi : i + 1 < (delimiters buf.bytes).length) :
    text buf stock i = some (slice buf i) := by
  obtain ⟨hd, hl⟩ := hf i
  rw [if_pos (by omega : i < (delimiters buf.bytes).length)] at hd
  rw [if_pos hi] at hl
  have hfit := buf.fits
  have hlt := delimiters_lt buf.bytes i (by omega)
  have hlt' := delimiters_lt buf.bytes (i + 1) hi
  have hstep := delimiters_step buf.bytes i hi
  have hmi := toNat_mark buf i (by omega)
  have hmj := toNat_mark buf (i + 1) hi
  have hdata : (mark buf i + 1).toNat = buf.pos.toNat + ((delimiters buf.bytes)[i] + 1) := by
    rw [BitVec.toNat_add, hmi]
    simp
    omega
  have hlen : (mark buf (i + 1) - (mark buf i + 1)).toNat =
      (delimiters buf.bytes)[i + 1] - ((delimiters buf.bytes)[i] + 1) := by
    rw [BitVec.toNat_sub, hdata, hmj]
    omega
  have hslice : slice buf i = (buf.bytes.drop ((delimiters buf.bytes)[i] + 1)).take
      ((delimiters buf.bytes)[i + 1] - ((delimiters buf.bytes)[i] + 1)) := by
    simp only [slice, List.getD_eq_getElem?_getD, List.getElem?_eq_getElem hi,
      List.getElem?_eq_getElem (by omega : i < (delimiters buf.bytes).length), Option.getD_some]
  simp only [text, read, h6, if_true, hd, hl, Option.bind_eq_bind, Option.bind_some, hslice]
  exact load_eq buf _ _ _ _ hdata hlen (by omega)

-- An element that is not closed has no length to read.
theorem text_open (buf : RecvBuf) (stock : Stock) (n : Nat) (hf : Filled buf n stock) (i : Nat)
    (hi : n ≤ i + 1) : text buf stock i = none := by
  have hl := (hf i).2
  rw [if_neg (by omega)] at hl
  unfold text read
  by_cases h6 : i < 6
  · simp [h6, hl]
  · simp [h6]

theorem outputFormat_renders (a b c : Bytes) :
    Printf.Renders outputFormat [.str a, .str b, .str c]
      (ngxString "stock[" ++ (a ++ (ngxString "],Today current price: " ++
        (b ++ (ngxString ", volumn: " ++ (c ++ [])))))) := by
  have hfmt : outputFormat = ngxString "stock[" ++ (37 :: 86 :: (ngxString "],Today current price: " ++
      (37 :: 86 :: (ngxString ", volumn: " ++ (37 :: 86 :: []))))) := by
    rw [outputFormat, ngxString_ofList, ngxString_ofList, ngxString_ofList, ngxString_ofList]
    rfl
  rw [hfmt]
  apply Printf.Renders.text _ _ (by decide)
  apply Printf.Renders.ngxStr
  apply Printf.Renders.text _ _ (by decide)
  apply Printf.Renders.ngxStr
  apply Printf.Renders.text _ _ (by decide)
  apply Printf.Renders.ngxStr
  exact .done []

theorem expected_length (buf : RecvBuf) :
    (expected buf).length =
      outputFormat.length + (slice buf 0).length + (slice buf 1).length + (slice buf 4).length - 6 := by
  have h0 : outputFormat.length = 45 := by decide
  have h1 : (ngxString "stock[").length = 6 := ngxString_length _
  have h2 : (ngxString "],Today current price: ").length = 23 := ngxString_length _
  have h3 : (ngxString ", volumn: ").length = 10 := ngxString_length _
  simp only [expected, List.length_append, h0, h1, h2, h3]
  omega

-- The reply is complete and its length is the one announced.
def Complete (buf : RecvBuf) (response : Option Response) : Prop :=
  response = some (.reply (expected buf).length (expected buf))

-- With the three fields readable everything depends on bodylen.
theorem postHandler_reply (tempBuf : Nat → Bool) (buf : RecvBuf) (stock : Stock)
    (h0 : text buf stock 0 = some (slice buf 0)) (h1 : text buf stock 1 = some (slice buf 1))
    (h4 : text buf stock 4 = some (slice buf 4)) :
    postHandler tempBuf buf 200 stock =
      if tempBuf (toSize (toInt32 (expected buf).length)) then
        some (.reply (toInt32 (expected buf).length)
          ((expected buf).take (toSize (toInt32 (expected buf).length))))
      else none := by
  have hr := outputFormat_renders (slice buf 0) (slice buf 1) (slice buf 4)
  have htext : ngxString "stock[" ++ (slice buf 0 ++ (ngxString "],Today current price: " ++
      (slice buf 1 ++ (ngxString ", volumn: " ++ (slice buf 4 ++ []))))) = expected buf := by
    simp [expected]
  rw [htext] at hr
  have hlen := expected_length buf
  have hbodylen : (outputFormat.length + (slice buf 0).length + (slice buf 1).length +
      (slice buf 4).length - 6 : Int) = (expected buf).length := by
    have h45 : outputFormat.length = 45 := by decide
    omega
  simp [postHandler, h0, h1, h4, hbodylen, Printf.snprintf, Printf.vslprintf_eq_take hr]

theorem respond_complete_iff (tempBuf : Nat → Bool) (buf : RecvBuf) :
    Complete buf (respond tempBuf buf 200) ↔
      (delimiters buf.bytes).length = 6 ∧ (expected buf).length < 2 ^ 31 ∧
        tempBuf (expected buf).length = true := by
  have hstep := fun n stock hn hf => filled_step buf stock n hn hf
  by_cases h6 : (delimiters buf.bytes).length ≤ 6
  · obtain ⟨last, hlast, hf⟩ := scan_invariant field buf (Filled buf) hstep uninitialised
      (filled_zero buf) h6
    have hrespond : respond tempBuf buf 200 = postHandler tempBuf buf 200 last := by
      simp [respond, subrequestPostHandler, hlast]
    rw [hrespond]
    by_cases heq : (delimiters buf.bytes).length = 6
    · have hreply := postHandler_reply tempBuf buf last (text_filled buf last hf 0 (by omega) (by omega))
        (text_filled buf last hf 1 (by omega) (by omega))
        (text_filled buf last hf 4 (by omega) (by omega))
      rw [hreply, Complete]
      by_cases hsmall : (expected buf).length < 2 ^ 31
      · have hint : toInt32 (expected buf).length = (expected buf).length :=
          toInt32_of_range _ (by omega) (by omega)
        have hsize : toSize ((expected buf).length : Int) = (expected buf).length := by
          have := toSize_of_nonneg (expected buf).length (by omega) (by omega)
          omega
        have hshort : (expected buf).length < 2147483648 := hsmall
        simp [hint, hsize, heq, hshort]
      · -- bodylen is at most 2^31 - 1
        have hint : toInt32 (expected buf).length ≠ (expected buf).length := by
          have := toInt32_lt (expected buf).length
          omega
        have hlong : ¬(expected buf).length < 2147483648 := hsmall
        simp [hint, hlong]
    · -- stock[4] is never closed
      have h4 := text_open buf last _ hf 4 (by omega)
      have hnone : postHandler tempBuf buf 200 last = none := by
        simp [postHandler, h4]
      simp [Complete, hnone, heq]
  · have hscan := scan_overrun field buf (Filled buf) hstep uninitialised (filled_zero buf)
      (fun pos stock => by
        cases hd : (stock 5).data with
        | none => simp [field, read, hd]
        | some data => simp [field, read, write]) (Nat.lt_of_not_le h6)
    have hnone : respond tempBuf buf 200 = none := by simp [respond, subrequestPostHandler, hscan]
    simp [Complete, hnone, show (delimiters buf.bytes).length ≠ 6 by omega]

-- One delimiter too few: the length of stock[4] is read although nothing was written to it.
theorem five_delimiters_incomplete :
    let buf : RecvBuf := ⟨4096, ngxString "\"a,b,c,d,e", by decide⟩
    respond (fun _ => true) buf 200 = none ∧
      ¬Complete buf (respond (fun _ => true) buf 200) := by
  intro buf
  have hnone : respond (fun _ => true) buf 200 = none := by decide
  exact ⟨hnone, by simp [Complete, hnone]⟩

end Nginx.Mytest
