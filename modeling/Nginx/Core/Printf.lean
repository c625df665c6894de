import Nginx.Core.Bytes

namespace Nginx.Printf

-- One argument of the va_list. A word is a register as the amd64 ABI passes it;
-- str stands for ngx_str_t * and ngx_variable_value_t *, ptr for the bytes readable at a u_char *.
inductive Arg where
  | str (v : Bytes)
  | ptr (p : Bytes)
  | word (w : BitVec 64)

-- The modifiers of a conversion. The (size_t) -1 that slen starts from is none.
structure Spec where
  zero : UInt8 := 32
  width : Nat := 0
  sign : Bool := true
  hex : Nat := 0
  maxWidth : Bool := false
  fracWidth : Nat := 0
  slen : Option Nat := none

-- NGX_INT64_LEN, which NGX_INT_T_LEN and NGX_ATOMIC_T_LEN equal on 64-bit platforms.
def int64Len : Nat := 20

def isDigit (c : UInt8) : Bool := 48 ≤ c && c ≤ 57

-- while (*fmt >= '0' && *fmt <= '9') width = width * 10 + *fmt++ - '0';
def decimals : Bytes → Nat → Bytes × Nat
  | c :: fmt, w => if isDigit c then decimals fmt ((w * 10 + (c.toNat - 48)) % 2 ^ 64)
      else (c :: fmt, w)
  | [], w => ([], w)

-- The for ( ;; ) loop over the flags in front of a conversion character.
def flags : Bytes → List Arg → Spec → Option (Bytes × List Arg × Spec)
  | c :: fmt, args, sp =>
      match Char.ofUInt8 c with
      | 'u' => flags fmt args { sp with sign := false }
      | 'm' => flags fmt args { sp with maxWidth := true }
      | 'X' => flags fmt args { sp with hex := 2, sign := false }
      | 'x' => flags fmt args { sp with hex := 1, sign := false }
      | '.' =>
          let (fmt, w) := decimals fmt sp.fracWidth
          some (fmt, args, { sp with fracWidth := w })
      | '*' =>
          match args with
          | .word w :: args =>
              flags fmt args { sp with slen := if w.toNat = 2 ^ 64 - 1 then none else some w.toNat }
          | _ => none
      | _ => some (c :: fmt, args, sp)
  | [], args, sp => some ([], args, sp)

-- What one iteration of the main loop writes: bytes copied up to the free room, a string read
-- up to its NUL, a number, or a character that is stored without a check.
inductive Item where
  | copy (v : Bytes)
  | copyN (p : Bytes) (n : Nat)
  | cstr (p : Bytes)
  | num (neg : Bool) (ui64 : Nat) (zero : UInt8) (hex width : Nat)
  | char (c : UInt8)

def signed (sp : Spec) (i64 : Int) (width : Nat) : Item :=
  .num (i64 < 0) i64.natAbs sp.zero sp.hex width

def integer (sp : Spec) (bits : Nat) (w : BitVec 64) (width : Nat) : Item :=
  if sp.sign then signed sp ((w.setWidth bits).toInt) width
  else .num false (w.setWidth bits).toNat sp.zero sp.hex width

-- switch (*fmt) on the conversion character. Conversions of floating point are left out (none),
-- like a missing argument and an argument of another type.
def conversion (c : UInt8) (args : List Arg) (sp : Spec) : Option (Item × List Arg) :=
  match Char.ofUInt8 c, args with
  | 'V', .str v :: args => some (.copy v, args)
  | 'v', .str v :: args => some (.copy v, args)
  | 's', .ptr p :: args =>
      match sp.slen with
      | none => some (.cstr p, args)
      | some n => some (.copyN p n, args)
  | 'O', .word w :: args => some (signed sp w.toInt sp.width, args)
  | 'P', .word w :: args => some (signed sp (w.setWidth 32).toInt sp.width, args)
  | 'T', .word w :: args => some (signed sp w.toInt sp.width, args)
  | 'M', .word w :: args =>
      some (if w.toInt = -1 then signed sp (-1) sp.width
        else .num false w.toNat sp.zero sp.hex sp.width, args)
  | 'z', .word w :: args => some (integer sp 64 w sp.width, args)
  | 'i', .word w :: args => some (integer sp 64 w (if sp.maxWidth then int64Len else sp.width), args)
  | 'd', .word w :: args => some (integer sp 32 w sp.width, args)
  | 'l', .word w :: args => some (integer sp 64 w sp.width, args)
  | 'D', .word w :: args => some (integer sp 32 w sp.width, args)
  | 'L', .word w :: args => some (integer sp 64 w sp.width, args)
  | 'A', .word w :: args => some (integer sp 64 w (if sp.maxWidth then int64Len else sp.width), args)
  | 'r', .word w :: args => some (signed sp w.toInt sp.width, args)
  | 'p', .word w :: args => some (.num false w.toNat 48 2 16, args)
  | 'c', .word w :: args => some (.char (UInt8.ofNat w.toNat), args)
  | 'Z', args => some (.char 0, args)
  | 'N', args => some (.char 10, args)
  | '%', args => some (.char 37, args)
  | d, args => if d ∈ "VvsOPTMzidlDLArpcf".toList then none else some (.char c, args)

-- A format that ends inside a conversion makes the source read past its NUL (none).
def convert : Bytes → List Arg → Spec → Option (Item × Bytes × List Arg)
  | c :: fmt, args, sp => (conversion c args sp).map fun (i, args) => (i, fmt, args)
  | [], _, _ => none

-- One iteration of while (*fmt && buf < last), up to the write.
def next : Bytes → List Arg → Option (Item × Bytes × List Arg)
  | c :: fmt, args =>
      if c = 37 then do
        let zero := if fmt.head? = some 48 then 48 else 32
        let (fmt, width) := decimals fmt 0
        let (fmt, args, sp) ← flags fmt args { zero, width }
        convert fmt args sp
      else some (.char c, fmt, args)
  | [], _ => none

def digit (hex d : Nat) : UInt8 :=
  if d < 10 then UInt8.ofNat (48 + d)
  else if hex = 2 then UInt8.ofNat (65 + (d - 10)) else UInt8.ofNat (97 + (d - 10))

-- do { *--p = digit } while (ui64 /= base), from the end of temp[NGX_INT64_LEN].
def temp (base hex : Nat) : Nat → Nat → Bytes → Bytes
  | 0, _, p => p
  | n + 1, ui64, p =>
      let p := digit hex (ui64 % base) :: p
      if ui64 / base = 0 then p else temp base hex n (ui64 / base) p

-- ngx_sprintf_num, with room = last - buf.
def sprintfNum (room ui64 : Nat) (zero : UInt8) (hex width : Nat) : Bytes :=
  let p := temp (if hex = 0 then 10 else 16) hex int64Len ui64 []
  let pad := List.replicate (min (width - p.length) room) zero
  pad ++ p.take (room - pad.length)

-- while (*p && buf < last) *buf++ = *p++;
def copyCstr : Nat → Bytes → Option Bytes
  | _, [] => none
  | 0, _ :: _ => some []
  | room + 1, c :: p => if c = 0 then some [] else (c :: ·) <$> copyCstr room p

-- The bytes one item stores when room = last - buf is positive.
def put (room : Nat) : Item → Option Bytes
  | .copy v => some (v.take (min room v.length))
  | .copyN p n => if min room n ≤ p.length then some (p.take (min room n)) else none
  | .cstr p => copyCstr room p
  | .num neg ui64 zero hex width =>
      let minus := if neg then [45] else []
      some (minus ++ sprintfNum (room - minus.length) ui64 zero hex width)
  | .char c => some [c]

def loop : Nat → Nat → Bytes → List Arg → Option Bytes
  | 0, _, _, _ => some []
  | n + 1, room, fmt, args =>
      if fmt = [] ∨ room = 0 then some []
      else do
        let (item, fmt, args) ← next fmt args
        let w ← put room item
        let rest ← loop n (room - w.length) fmt args
        return w ++ rest

-- ngx_vslprintf with room = last - buf: the bytes written from buf on. Each iteration consumes a
-- character of the format, so its length bounds the iterations.
def vslprintf (room : Nat) (fmt : Bytes) (args : List Arg) : Option Bytes :=
  loop fmt.length room fmt args

-- ngx_snprintf, and ngx_sprintf whose last is (void *) -1.
def snprintf (max : Nat) (fmt : Bytes) (args : List Arg) : Option Bytes := vslprintf max fmt args

def sprintf (buf : Nat) (fmt : Bytes) (args : List Arg) : Option Bytes :=
  vslprintf (2 ^ 64 - 1 - buf) fmt args

theorem decimals_length_le (fmt : Bytes) (w : Nat) : (decimals fmt w).1.length ≤ fmt.length := by
  induction fmt generalizing w with
  | nil => simp [decimals]
  | cons c fmt ih =>
      unfold decimals
      split
      · exact (ih _).trans (Nat.le_succ _)
      · exact Nat.le_refl _

theorem flags_length_le (fmt : Bytes) (args : List Arg) (sp : Spec) (out : Bytes × List Arg × Spec)
    (h : flags fmt args sp = some out) : out.1.length ≤ fmt.length := by
  induction fmt generalizing args sp with
  | nil => simp [flags] at h; simp [← h]
  | cons c fmt ih =>
      unfold flags at h
      split at h
      · exact (ih _ _ h).trans (Nat.le_succ _)
      · exact (ih _ _ h).trans (Nat.le_succ _)
      · exact (ih _ _ h).trans (Nat.le_succ _)
      · exact (ih _ _ h).trans (Nat.le_succ _)
      · have hd := decimals_length_le fmt sp.fracWidth
        simp only [Option.some.injEq] at h
        subst h
        exact hd.trans (Nat.le_succ _)
      · split at h
        · exact (ih _ _ h).trans (Nat.le_succ _)
        · cases h
      · simp only [Option.some.injEq] at h
        subst h
        exact Nat.le_refl _

theorem convert_length_lt (fmt : Bytes) (args : List Arg) (sp : Spec)
    (out : Item × Bytes × List Arg) (h : convert fmt args sp = some out) :
    out.2.1.length < fmt.length := by
  cases fmt with
  | nil => simp [convert] at h
  | cons c fmt =>
      obtain ⟨found, -, rfl⟩ := Option.map_eq_some_iff.mp h
      exact Nat.lt_succ_self _

-- Every iteration consumes a character of the format.
theorem next_length_lt (fmt : Bytes) (args : List Arg) (out : Item × Bytes × List Arg)
    (h : next fmt args = some out) : out.2.1.length < fmt.length := by
  cases fmt with
  | nil => simp [next] at h
  | cons c fmt =>
      simp only [next] at h
      split at h
      · obtain ⟨⟨rest, args', sp⟩, hf, hc⟩ := Option.bind_eq_some_iff.mp h
        have hd := decimals_length_le fmt 0
        have hl := flags_length_le _ _ _ _ hf
        have ht := convert_length_lt _ _ _ _ hc
        simp only [List.length_cons] at *
        omega
      · obtain rfl := Option.some.inj h
        exact Nat.lt_succ_self _

section Render

-- What an item stores when there is room for all of it.
def emit : Item → Option Bytes
  | .copy v => some v
  | .copyN p n => if n ≤ p.length then some (p.take n) else none
  | .cstr p => if 0 ∈ p then some (p.takeWhile (· ≠ 0)) else none
  | .num neg ui64 zero hex width =>
      let p := temp (if hex = 0 then 10 else 16) hex int64Len ui64 []
      some ((if neg then [45] else []) ++ (List.replicate (width - p.length) zero ++ p))
  | .char c => some [c]

-- The text a format and its arguments denote, without regard to any buffer.
inductive Renders : Bytes → List Arg → Bytes → Prop where
  | done (args : List Arg) : Renders [] args []
  | item {fmt fmt' : Bytes} {args args' : List Arg} {i : Item} {w rest : Bytes}
      (hn : next fmt args = some (i, fmt', args')) (he : emit i = some w)
      (hr : Renders fmt' args' rest) : Renders fmt args (w ++ rest)

theorem copyCstr_eq_take (p : Bytes) (hp : 0 ∈ p) (room : Nat) :
    copyCstr room p = some ((p.takeWhile (· ≠ 0)).take room) := by
  induction p generalizing room with
  | nil => simp at hp
  | cons c p ih =>
      by_cases hc : c = 0
      · subst hc
        cases room <;> simp [copyCstr]
      · have hp' : 0 ∈ p := by simpa [Ne.symm hc] using hp
        cases room with
        | zero => simp [copyCstr]
        | succ room => simp [copyCstr, hc, ih hp']

theorem sprintfNum_eq_take (room ui64 : Nat) (zero : UInt8) (hex width : Nat) :
    let p := temp (if hex = 0 then 10 else 16) hex int64Len ui64 []
    sprintfNum room ui64 zero hex width =
      (List.replicate (width - p.length) zero ++ p).take room := by
  intro p
  simp only [sprintfNum, List.take_append, List.take_replicate, List.length_replicate]
  congr 1
  · rw [Nat.min_comm]
  · by_cases h : width - p.length ≤ room
    · rw [Nat.min_eq_left h]
    · have hfull : room - min (width - p.length) room = 0 := by omega
      have hcut : room - (width - p.length) = 0 := by omega
      rw [hfull, hcut, List.take_zero]

-- An item that does not fit is cut at the end of the buffer.
theorem put_eq_take (i : Item) (w : Bytes) (he : emit i = some w) (room : Nat) (hr : 0 < room) :
    put room i = some (w.take room) := by
  cases i with
  | copy v =>
      simp only [emit, Option.some.injEq] at he
      subst he
      simp only [put, Option.some.injEq]
      by_cases h : v.length ≤ room
      · rw [Nat.min_eq_right h, List.take_length, List.take_of_length_le h]
      · rw [Nat.min_eq_left (by omega)]
  | copyN p n =>
      simp only [emit] at he
      split at he
      · rename_i hn
        cases he
        have hm : min room n ≤ p.length := (Nat.min_le_right _ _).trans hn
        simp [put, hm, List.take_take]
      · cases he
  | cstr p =>
      simp only [emit] at he
      split at he
      · rename_i hp
        cases he
        simpa [put] using copyCstr_eq_take p hp room
      · cases he
  | num neg ui64 zero hex width =>
      simp only [emit, Option.some.injEq] at he
      subst he
      simp only [put, sprintfNum_eq_take]
      cases neg with
      | true =>
          obtain ⟨k, rfl⟩ : ∃ k, room = k + 1 := ⟨room - 1, by omega⟩
          simp
      | false => simp
  | char c =>
      simp only [emit, Option.some.injEq] at he
      subst he
      obtain ⟨k, rfl⟩ : ∃ k, room = k + 1 := ⟨room - 1, by omega⟩
      simp [put]

-- The induction is on the derivation; the fuel only has to cover the rest of the format.
theorem loop_eq_take {fmt : Bytes} {args : List Arg} {w : Bytes} (h : Renders fmt args w)
    (n room : Nat) (hn : fmt.length ≤ n) : loop n room fmt args = some (w.take room) := by
  induction h generalizing n room with
  | done args => cases n <;> simp [loop]
  | @item fmt fmt' args args' i w rest hnext he hr ih =>
      have hlt : fmt'.length < fmt.length := next_length_lt _ _ _ hnext
      have hne : fmt ≠ [] := by rintro rfl; simp at hlt
      cases n with
      | zero => omega
      | succ n =>
          by_cases hroom : room = 0
          · simp [loop, hroom]
          · have hput := put_eq_take i w he room (Nat.pos_of_ne_zero hroom)
            have hrec := ih n (room - w.length) (by omega)
            have hsub : room - (w.take room).length = room - w.length := by
              rw [List.length_take]
              omega
            simp only [loop, hne, hroom, or_self, ite_false, hnext, hput, hsub, hrec,
              Option.bind_eq_bind, Option.bind_some, Option.pure_def, List.take_append]

-- A bounded call writes the first (last - buf) bytes of the text.
theorem vslprintf_eq_take {fmt : Bytes} {args : List Arg} {w : Bytes} (h : Renders fmt args w)
    (room : Nat) : vslprintf room fmt args = some (w.take room) :=
  loop_eq_take h _ _ (Nat.le_refl _)

theorem Renders.text {fmt : Bytes} {args : List Arg} {w : Bytes} (h : Renders fmt args w)
    (s : Bytes) (hs : 37 ∉ s) : Renders (s ++ fmt) args (s ++ w) := by
  induction s with
  | nil => exact h
  | cons c s ih =>
      rw [List.mem_cons, not_or] at hs
      have hn : next (c :: (s ++ fmt)) args = some (.char c, s ++ fmt, args) := by
        simp [next, Ne.symm hs.1]
      exact .item (w := [c]) hn rfl (ih hs.2)

-- The conversions without modifiers that the modules use.
theorem Renders.ngxStr {fmt : Bytes} {args : List Arg} {w : Bytes} (h : Renders fmt args w) (v : Bytes) :
    Renders (37 :: 86 :: fmt) (.str v :: args) (v ++ w) := .item rfl rfl h

theorem Renders.cstr {fmt : Bytes} {args : List Arg} {w : Bytes} (h : Renders fmt args w) (p : Bytes)
    (hp : 0 ∈ p) : Renders (37 :: 115 :: fmt) (.ptr p :: args) (p.takeWhile (· ≠ 0) ++ w) :=
  .item (i := .cstr p) rfl (by simp [emit, hp]) h

-- The digits of a number without padding.
def decimal (n : Int) : Bytes :=
  (if n < 0 then [45] else []) ++ temp 10 0 int64Len n.natAbs []

theorem emit_signed (i64 : Int) : emit (signed {} i64 0) = some (decimal i64) := by
  simp [signed, emit, decimal]

theorem Renders.int {fmt : Bytes} {args : List Arg} {w : Bytes} (h : Renders fmt args w)
    (x : BitVec 64) : Renders (37 :: 100 :: fmt) (.word x :: args)
      (decimal (x.setWidth 32).toInt ++ w) :=
  .item (i := integer {} 32 x 0) rfl (emit_signed _) h

theorem Renders.ssize {fmt : Bytes} {args : List Arg} {w : Bytes} (h : Renders fmt args w)
    (x : BitVec 64) : Renders (37 :: 122 :: fmt) (.word x :: args) (decimal x.toInt ++ w) := by
  have hi : (x.setWidth 64).toInt = x.toInt := by rw [BitVec.setWidth_eq]
  exact .item (i := integer {} 64 x 0) rfl (hi ▸ emit_signed _) h

theorem Renders.size {fmt : Bytes} {args : List Arg} {w : Bytes} (h : Renders fmt args w)
    (x : BitVec 64) : Renders (37 :: 117 :: 122 :: fmt) (.word x :: args) (decimal x.toNat ++ w) := by
  have hx : (x.setWidth 64).toNat = x.toNat := by rw [BitVec.setWidth_eq]
  have hemit : emit (.num false (x.setWidth 64).toNat 32 0 0) = some (decimal x.toNat) := by
    rw [hx]
    simp [emit, decimal]
  exact .item (i := .num false (x.setWidth 64).toNat 32 0 0) rfl hemit h

theorem Renders.off {fmt : Bytes} {args : List Arg} {w : Bytes} (h : Renders fmt args w)
    (x : BitVec 64) : Renders (37 :: 79 :: fmt) (.word x :: args) (decimal x.toInt ++ w) :=
  .item (i := signed {} x.toInt 0) rfl (emit_signed _) h

-- %0muA, with as many digits as the type can have
def atomicDigits (x : BitVec 64) : Bytes :=
  let p := temp 10 0 int64Len x.toNat []
  List.replicate (int64Len - p.length) 48 ++ p

theorem Renders.atomic {fmt : Bytes} {args : List Arg} {w : Bytes} (h : Renders fmt args w)
    (x : BitVec 64) : Renders (37 :: 48 :: 109 :: 117 :: 65 :: fmt) (.word x :: args) (atomicDigits x ++ w) := by
  have hx : (x.setWidth 64).toNat = x.toNat := by rw [BitVec.setWidth_eq]
  have hemit : emit (.num false (x.setWidth 64).toNat 48 0 int64Len) = some (atomicDigits x) := by
    rw [hx]
    rfl
  exact .item (i := .num false (x.setWidth 64).toNat 48 0 int64Len) rfl hemit h

end Render

-- The number of digits the division loop stores.
theorem temp_length (base hex : Nat) (hb : 2 ≤ base) (n ui64 : Nat) (p : Bytes)
    (h : ui64 < base ^ (n + 1)) :
    (temp base hex (n + 1) ui64 p).length = Nat.log base ui64 + 1 + p.length := by
  induction n generalizing ui64 p with
  | zero =>
      have hlt : ui64 < base := by simpa using h
      have hz : ui64 / base = 0 := Nat.div_eq_of_lt hlt
      simp [temp, hz, Nat.log_of_lt hlt, Nat.add_comm]
  | succ n ih =>
      rw [temp]
      by_cases hlt : ui64 < base
      · have hz : ui64 / base = 0 := Nat.div_eq_of_lt hlt
        simp [hz, Nat.log_of_lt hlt, Nat.add_comm]
      · have hge : base ≤ ui64 := Nat.le_of_not_lt hlt
        have hz : ui64 / base ≠ 0 := by
          have := Nat.div_pos hge (by omega)
          omega
        have hdiv : ui64 / base < base ^ (n + 1) :=
          Nat.div_lt_of_lt_mul (by rwa [Nat.mul_comm, ← Nat.pow_succ])
        have hlog := Nat.log_of_one_lt_of_le (by omega : 1 < base) hge
        simp only [hz, ite_false]
        rw [ih _ _ hdiv, hlog, List.length_cons]
        omega

-- The characters a signed number takes in decimal.
def decimalWidth (n : Int) : Nat := (if n < 0 then 1 else 0) + (Nat.log 10 n.natAbs + 1)

theorem decimal_length (n : Int) (h : n.natAbs < 10 ^ 20) :
    (decimal n).length = decimalWidth n := by
  unfold decimal decimalWidth int64Len
  rw [List.length_append, temp_length 10 0 (by omega) 19 n.natAbs [] (by simpa using h)]
  split <;> simp

theorem decimalWidth_le (n : Int) (h : n.natAbs < 10 ^ 20) : decimalWidth n ≤ 21 := by
  have hlog : Nat.log 10 n.natAbs < 20 := Nat.log_lt_of_lt_pow' (by omega) h
  unfold decimalWidth
  split <;> omega

theorem atomicDigits_length (x : BitVec 64) : (atomicDigits x).length = int64Len := by
  have hlt : x.toNat < 10 ^ 20 := Nat.lt_trans x.isLt (by decide)
  have hlog : Nat.log 10 x.toNat < 20 := Nat.log_lt_of_lt_pow' (by omega) hlt
  have hdigits : (temp 10 0 int64Len x.toNat []).length = Nat.log 10 x.toNat + 1 + 0 :=
    temp_length 10 0 (by omega) 19 x.toNat [] hlt
  rw [atomicDigits, List.length_append, List.length_replicate, hdigits]
  simp only [int64Len]
  omega

-- What is read of the digits of a number, by a reading that takes one digit after the other
theorem read_temp {β : Type} {base hex : Nat} {read : Nat → Bytes → β} (hbase : 0 < base)
    (hread : ∀ n, ∀ d < base, ∀ p, read n (digit hex d :: p) = read (n * base + d) p) {n ui64 : Nat} (p : Bytes)
    (h : ui64 < base ^ (n + 1)) : read 0 (temp base hex (n + 1) ui64 p) = read ui64 p := by
  induction n generalizing ui64 p with
  | zero =>
      have hlt : ui64 < base := by simpa using h
      rw [temp, if_pos (Nat.div_eq_of_lt hlt), Nat.mod_eq_of_lt hlt, hread 0 _ hlt, Nat.zero_mul, Nat.zero_add]
  | succ n ih =>
      have hmod := Nat.mod_lt ui64 hbase
      have hsum : ui64 / base * base + ui64 % base = ui64 := Nat.div_add_mod' ui64 base
      rw [temp]
      split
      next hzero =>
          rw [hzero, Nat.zero_mul] at hsum
          rw [hread 0 _ hmod, Nat.zero_mul, hsum]
      next =>
          have hdiv : ui64 / base < base ^ (n + 1) := by
            apply Nat.div_lt_of_lt_mul
            rwa [Nat.mul_comm, ← Nat.pow_succ]
          rw [ih _ hdiv, hread _ _ hmod, hsum]

-- The number that decimal digits stand for, behind a number
def digitsValue (start : Nat) (p : Bytes) : Nat := p.foldl (fun n c => 10 * n + (c.toNat - 48)) start

theorem digitsValue_digit (n : Nat) : ∀ d < 10, ∀ p, digitsValue n (digit 0 d :: p) = digitsValue (n * 10 + d) p := by
  have hdigit : ∀ d, d < 10 → (digit 0 d).toNat - 48 = d := by decide
  intro d hd p
  rw [digitsValue, List.foldl_cons, hdigit d hd, Nat.mul_comm, digitsValue]

theorem digitsValue_decimal (n : Nat) (h : n < 2 ^ 64) : digitsValue 0 (decimal n) = n := by
  have hneg : ¬((n : Int) < 0) := by omega
  rw [decimal, if_neg hneg, List.nil_append, Int.natAbs_natCast]
  exact read_temp (by decide) digitsValue_digit [] (Nat.lt_of_lt_of_le h (by decide))

theorem decimal_ne_nil (n : Nat) (h : n < 2 ^ 64) : decimal n ≠ [] := by
  have hlen := decimal_length n (Nat.lt_of_lt_of_le h (by decide))
  intro hnil
  rw [hnil, decimalWidth] at hlen
  simp at hlen

end Nginx.Printf
