import Nginx.Core.Number
import Nginx.Core.Printf

namespace Nginx.Inet

open Number

-- An in_addr_t in network byte order is the number that its bytes are the big endian form of. htonl and ntohl then change
-- nothing.
def inaddrNone : Nat := 0xffffffff

-- The loop of ngx_inet_addr: addr, octet and n behind it, where none is INADDR_NONE
def inetAddrLoop : Bytes → Nat → Nat → Nat → Option (Nat × Nat × Nat)
  | [], addr, octet, n => some (addr, octet, n)
  | c :: text, addr, octet, n =>
      match decimalDigit c with
      | some d => inetAddrLoop text addr ((octet * 10 + d) % 2 ^ 64) n
      | none =>
          if c = 46 ∧ octet < 256 then inetAddrLoop text ((addr * 256 + octet) % 2 ^ 32) 0 (n + 1) else none

-- ngx_inet_addr
def inetAddr (text : Bytes) : Nat :=
  match inetAddrLoop text 0 0 0 with
  | none => inaddrNone
  | some (addr, octet, n) =>
      if n ≠ 3 then inaddrNone else if octet < 256 then (addr * 256 + octet) % 2 ^ 32 else inaddrNone

-- ngx_inet_ntop of AF_INET
def inetNtop (p0 p1 p2 p3 : UInt8) (len : Nat) : Option Bytes :=
  Printf.snprintf len (ngxString "%ud.%ud.%ud.%ud")
    [.word p0.toNat, .word p1.toNat, .word p2.toNat, .word p3.toNat]

-- The variables of ngx_inet6_addr: the bytes written, zero as a position in them, and the text from digit on
structure Inet6 where
  out : Bytes := []
  zero : Option Nat := none
  digit : Option Bytes := none
  n : Nat := 8
  nibbles : Nat := 0
  word : Nat := 0

def Inet6.store (s : Inet6) (word : Nat) : Bytes := s.out ++ [UInt8.ofNat (word / 256), UInt8.ofNat word]

-- The loop, where none is NGX_ERROR
def inet6Loop : Bytes → Inet6 → Option Inet6
  | [], s => some s
  | c :: rest, s =>
      if c = 58 then
        if s.nibbles ≠ 0 then
          if s.n - 1 ≠ 0 then
            inet6Loop rest { s with out := s.store s.word, digit := some rest, n := s.n - 1, nibbles := 0, word := 0 }
          else none
        else if s.zero = none then inet6Loop rest { s with digit := some rest, zero := some s.out.length }
        else none
      else if c = 46 ∧ s.nibbles ≠ 0 then
        match s.digit with
        | none => none
        | some digit =>
            if s.n < 2 then none
            else
              let word := inetAddr digit
              if word = inaddrNone then none
              else some { s with out := s.store (word / 2 ^ 16), n := s.n - 1, word := word }
      else if s.nibbles + 1 > 4 then none
      else
        match Number.hexDigit c with
        | none => none
        | some d => inet6Loop rest { s with nibbles := s.nibbles + 1, word := s.word * 16 + d }

-- ngx_inet6_addr: the 16 bytes, or none for NGX_ERROR
def inet6Addr (text : Bytes) : Option Bytes :=
  if text = [] then none
  else
    match inet6Loop (if text.head? = some 58 then text.tail else text) {} with
    | none => none
    | some s =>
        if s.nibbles = 0 ∧ s.zero = none then none
        else
          let out := s.store s.word
          let n := s.n - 1
          match s.zero with
          | some start => if n ≠ 0 then some (out.take start ++ List.replicate (n * 2) 0 ++ out.drop start) else none
          | none => if n ≠ 0 then none else some out

-- ngx_cidr_t
inductive Cidr where
  | inet (addr mask : Nat)
  | inet6 (addr mask : Bytes)
deriving DecidableEq

-- The text in front of '/', and the text behind it
def addrText (text : Bytes) : Bytes := text.takeWhile (· ≠ 47)

def maskText (text : Bytes) : Option Bytes :=
  match text.dropWhile (· ≠ 47) with
  | [] => none
  | _ :: mask => some mask

-- The shl instruction takes its count modulo 32.
def inMask (shift : Int) : Nat := if shift ≠ 0 then (2 ^ 32 - 2 ^ ((32 - shift) % 32).toNat) % 2 ^ 32 else 0

-- The loop over the bytes of s6_addr: addr, mask and whether a bit was cleared
def maskLoop : Bytes → Int → Bytes × Bytes × Bool
  | [], _ => ([], [], false)
  | byte :: addr, shift =>
      let s := if shift > 8 then 8 else shift
      let mask := UInt8.ofNat (2 ^ 8 - 2 ^ (8 - s).toNat)
      let (addr, masks, done) := maskLoop addr (shift - s)
      ((byte &&& mask) :: addr, mask :: masks, byte ≠ byte &&& mask || done)

-- ngx_ptocidr: whether it returns NGX_DONE, and the network; none is NGX_ERROR.
def ptocidr (text : Bytes) : Option (Bool × Cidr) :=
  let addr := inetAddr (addrText text)
  if addr ≠ inaddrNone then
    match maskText text with
    | none => some (false, .inet addr 0xffffffff)
    | some mask =>
        let shift := atoi mask
        if shift = -1 then none
        else
          let mask := inMask shift
          if addr = addr &&& mask then some (false, .inet addr mask) else some (true, .inet (addr &&& mask) mask)
  else
    match inet6Addr (addrText text) with
    | none => none
    | some addr =>
        match maskText text with
        | none => some (false, .inet6 addr (List.replicate 16 0xff))
        | some mask =>
            let shift := atoi mask
            if shift = -1 then none
            else
              let (addr, mask, done) := maskLoop addr shift
              some (done, .inet6 addr mask)

theorem inetAddrLoop_digits {s : Bytes} (text : Bytes) (addr : Nat) {octet v : Nat} (n : Nat)
    (h : numeralFrom 10 octet s = some v) :
    inetAddrLoop (s ++ text) addr (octet % 2 ^ 64) n = inetAddrLoop text addr (v % 2 ^ 64) n := by
  induction s generalizing octet with
  | nil =>
      obtain rfl : octet = v := by simpa [numeralFrom] using h
      rfl
  | cons c s ih =>
      rw [numeralFrom, Option.bind_eq_some_iff] at h
      obtain ⟨d, hd, hv⟩ := h
      have hwrap : (octet % 2 ^ 64 * 10 + d) % 2 ^ 64 = (octet * 10 + d) % 2 ^ 64 := by omega
      rw [List.cons_append, inetAddrLoop, decimalDigit_eq, hd]
      dsimp only
      rw [hwrap, ih hv]

theorem inetAddrLoop_dot (text : Bytes) (addr octet n : Nat) :
    inetAddrLoop (46 :: text) addr octet n =
      if octet < 256 then inetAddrLoop text ((addr * 256 + octet) % 2 ^ 32) 0 (n + 1) else none := by
  have hdigit : decimalDigit 46 = none := by rw [decimalDigit_eq, digit_point]
  rw [inetAddrLoop, hdigit]
  simp only [true_and]

-- A text of four parts between dots that are made of digits, and the numbers that these are; a part without digits is 0.
structure Parts (text : Bytes) (part : Fin 4 → Bytes) (value : Fin 4 → Nat) : Prop where
  text_eq : text = part 0 ++ 46 :: (part 1 ++ 46 :: (part 2 ++ 46 :: part 3))
  value_eq : ∀ i, numeralFrom 10 0 (part i) = some (value i)

-- The address that four octets denote
def quad (octet : Fin 4 → Nat) : Nat := ((octet 0 * 256 + octet 1) * 256 + octet 2) * 256 + octet 3

theorem inetAddr_parts {text : Bytes} {part : Fin 4 → Bytes} {value : Fin 4 → Nat} (h : Parts text part value) :
    inetAddr text = if ∀ i, value i % 2 ^ 64 < 256 then quad fun i => value i % 2 ^ 64 else inaddrNone := by
  have hpart : ∀ i text addr n, inetAddrLoop (part i ++ text) addr 0 n = inetAddrLoop text addr (value i % 2 ^ 64) n :=
    fun i text addr n => inetAddrLoop_digits text addr n (h.value_eq i)
  have hlast : ∀ addr n, inetAddrLoop (part 3) addr 0 n = some (addr, value 3 % 2 ^ 64, n) := by
    intro addr n
    simpa [inetAddrLoop] using hpart 3 [] addr n
  rw [inetAddr, h.text_eq, hpart, inetAddrLoop_dot]
  by_cases h0 : value 0 % 2 ^ 64 < 256
  swap
  · rw [if_neg h0, if_neg fun hall => h0 (hall 0)]
  rw [if_pos h0, hpart, inetAddrLoop_dot]
  by_cases h1 : value 1 % 2 ^ 64 < 256
  swap
  · rw [if_neg h1, if_neg fun hall => h1 (hall 1)]
  rw [if_pos h1, hpart, inetAddrLoop_dot]
  by_cases h2 : value 2 % 2 ^ 64 < 256
  swap
  · rw [if_neg h2, if_neg fun hall => h2 (hall 2)]
  rw [if_pos h2, hlast]
  dsimp only
  by_cases h3 : value 3 % 2 ^ 64 < 256
  swap
  · rw [if_neg (by omega), if_neg h3, if_neg fun hall => h3 (hall 3)]
  have hall : ∀ i, value i % 2 ^ 64 < 256 := fun
    | 0 => h0
    | 1 => h1
    | 2 => h2
    | 3 => h3
  rw [if_neg (by omega), if_pos h3, if_pos hall, quad]
  omega

theorem numeralFrom_isSome (n m : Nat) {s : Bytes} (h : (numeralFrom 10 n s).isSome) : (numeralFrom 10 m s).isSome := by
  induction s generalizing n m with
  | nil => rfl
  | cons c s ih =>
      rw [numeralFrom] at h ⊢
      cases hd : digitOf 10 c with
      | none => rw [hd] at h; exact absurd h (by simp)
      | some d =>
          rw [hd] at h
          exact ih _ _ h

-- A text that the loop accepts is one more part, or the last one.
theorem inetAddrLoop_part {text : Bytes} {addr octet n : Nat} {out : Nat × Nat × Nat}
    (h : inetAddrLoop text addr octet n = some out) :
    out.2.2 = n ∧ (numeralFrom 10 0 text).isSome ∨
      ∃ s rest addr', text = s ++ 46 :: rest ∧ (numeralFrom 10 0 s).isSome ∧
        inetAddrLoop rest addr' 0 (n + 1) = some out := by
  induction text generalizing octet with
  | nil =>
      left
      rw [inetAddrLoop] at h
      cases h
      exact ⟨rfl, rfl⟩
  | cons c text ih =>
      rw [inetAddrLoop] at h
      split at h
      next d hd =>
          rw [decimalDigit_eq] at hd
          have hcons : ∀ s, (numeralFrom 10 0 s).isSome → (numeralFrom 10 0 (c :: s)).isSome := by
            intro s hs
            rw [numeralFrom, hd]
            exact numeralFrom_isSome 0 _ hs
          obtain ⟨hn, htext⟩ | ⟨s, rest, addr', rfl, hs, hrest⟩ := ih h
          · exact Or.inl ⟨hn, hcons text htext⟩
          · exact Or.inr ⟨c :: s, rest, addr', rfl, hcons s hs, hrest⟩
      next =>
          split at h
          next hdot =>
              obtain ⟨rfl, -⟩ := hdot
              exact Or.inr ⟨[], text, _, rfl, rfl, h⟩
          next => cases h

theorem inetAddrLoop_count {text : Bytes} {addr octet n : Nat} {out : Nat × Nat × Nat}
    (h : inetAddrLoop text addr octet n = some out) : n ≤ out.2.2 := by
  induction text generalizing addr octet n with
  | nil =>
      rw [inetAddrLoop] at h
      cases h
      exact Nat.le_refl n
  | cons c text ih =>
      rw [inetAddrLoop] at h
      split at h
      · exact ih h
      · split at h
        · exact Nat.le_of_succ_le (ih h)
        · cases h

theorem inetAddr_ne_none {text : Bytes} (h : inetAddr text ≠ inaddrNone) : ∃ part value, Parts text part value := by
  have hloop : ∃ addr octet, inetAddrLoop text 0 0 0 = some (addr, octet, 3) := by
    unfold inetAddr at h
    split at h
    · exact absurd rfl h
    next addr octet n hrun =>
        split at h
        · exact absurd rfl h
        next hn =>
            obtain rfl : n = 3 := by omega
            exact ⟨addr, octet, hrun⟩
  obtain ⟨addr, octet, hloop⟩ := hloop
  obtain ⟨h0, -⟩ | ⟨s0, rest0, addr0, rfl, hs0, hrest0⟩ := inetAddrLoop_part hloop
  · cases h0
  obtain ⟨h1, -⟩ | ⟨s1, rest1, addr1, rfl, hs1, hrest1⟩ := inetAddrLoop_part hrest0
  · cases h1
  obtain ⟨h2, -⟩ | ⟨s2, rest2, addr2, rfl, hs2, hrest2⟩ := inetAddrLoop_part hrest1
  · cases h2
  obtain ⟨-, hs3⟩ | ⟨s3, rest3, addr3, rfl, hs3, hrest3⟩ := inetAddrLoop_part hrest2
  swap
  · have hcount : 4 ≤ 3 := inetAddrLoop_count hrest3
    omega
  obtain ⟨a, ha⟩ := Option.isSome_iff_exists.mp hs0
  obtain ⟨b, hb⟩ := Option.isSome_iff_exists.mp hs1
  obtain ⟨c, hc⟩ := Option.isSome_iff_exists.mp hs2
  obtain ⟨d, hd⟩ := Option.isSome_iff_exists.mp hs3
  exact ⟨![s0, s1, s2, rest2], ![a, b, c, d], ⟨rfl, fun
    | 0 => ha
    | 1 => hb
    | 2 => hc
    | 3 => hd⟩⟩

theorem numeralFrom_no_dot {s : Bytes} {n v : Nat} (h : numeralFrom 10 n s = some v) : 46 ∉ s := by
  have hdot : digitOf 10 46 = none := digit_point
  induction s generalizing n with
  | nil => exact List.not_mem_nil
  | cons c s ih =>
      rw [numeralFrom, Option.bind_eq_some_iff] at h
      obtain ⟨d, hd, hv⟩ := h
      rintro (_ | ⟨_, hmem⟩)
      · rw [hdot] at hd
        cases hd
      · exact ih hv hmem

theorem append_cons_inj {c : UInt8} {s s' t t' : Bytes} (hs : c ∉ s) (hs' : c ∉ s') (h : s ++ c :: t = s' ++ c :: t') :
    s = s' ∧ t = t' := by
  induction s generalizing s' with
  | nil =>
      cases s' with
      | nil => exact ⟨rfl, List.tail_eq_of_cons_eq h⟩
      | cons c' s' => exact absurd (List.head_eq_of_cons_eq h) (List.ne_of_not_mem_cons hs')
  | cons c₁ s ih =>
      cases s' with
      | nil => exact absurd (List.head_eq_of_cons_eq h).symm (List.ne_of_not_mem_cons hs)
      | cons c' s' =>
          obtain rfl := List.head_eq_of_cons_eq h
          obtain ⟨rfl, rfl⟩ := ih (List.not_mem_of_not_mem_cons hs) (List.not_mem_of_not_mem_cons hs')
            (List.tail_eq_of_cons_eq h)
          exact ⟨rfl, rfl⟩

-- The parts of a text are determined.
theorem Parts.unique {text : Bytes} {part part' : Fin 4 → Bytes} {value value' : Fin 4 → Nat}
    (h : Parts text part value) (h' : Parts text part' value') : part = part' ∧ value = value' := by
  have hno : ∀ i, 46 ∉ part i := fun i => numeralFrom_no_dot (h.value_eq i)
  have hno' : ∀ i, 46 ∉ part' i := fun i => numeralFrom_no_dot (h'.value_eq i)
  obtain ⟨h0, hrest⟩ := append_cons_inj (hno 0) (hno' 0) (h.text_eq.symm.trans h'.text_eq)
  obtain ⟨h1, hrest⟩ := append_cons_inj (hno 1) (hno' 1) hrest
  obtain ⟨h2, h3⟩ := append_cons_inj (hno 2) (hno' 2) hrest
  have hpart : part = part' := funext fun
    | 0 => h0
    | 1 => h1
    | 2 => h2
    | 3 => h3
  subst hpart
  refine ⟨rfl, funext fun i => ?_⟩
  exact Option.some.inj ((h.value_eq i).symm.trans (h'.value_eq i))

-- A text of four numbers with an octet each
def Dotted (text : Bytes) (octet : Fin 4 → Nat) : Prop :=
  ∃ part, Parts text part octet ∧ ∀ i, part i ≠ [] ∧ octet i < 256

-- INADDR_NONE is returned for what is no such text, and for the broadcast address.
def InetText (text : Bytes) : Prop :=
  (inetAddr text ≠ inaddrNone ↔ ∃ octet, Dotted text octet ∧ quad octet ≠ inaddrNone) ∧
    ∀ octet, Dotted text octet → inetAddr text = quad octet

theorem quad_eq_none_iff (octet : Fin 4 → Nat) (h : ∀ i, octet i < 256) :
    quad octet = inaddrNone ↔ ∀ i, octet i = 255 := by
  have h0 := h 0
  have h1 := h 1
  have h2 := h 2
  have h3 := h 3
  rw [quad, inaddrNone]
  constructor
  · intro hq
    have hall : octet 0 = 255 ∧ octet 1 = 255 ∧ octet 2 = 255 ∧ octet 3 = 255 := by omega
    exact fun
      | 0 => hall.1
      | 1 => hall.2.1
      | 2 => hall.2.2.1
      | 3 => hall.2.2.2
  · intro hall
    rw [hall 0, hall 1, hall 2, hall 3]

theorem Dotted.addr {text : Bytes} {octet : Fin 4 → Nat} (h : Dotted text octet) : inetAddr text = quad octet := by
  obtain ⟨part, hparts, hoctet⟩ := h
  have hsmall : (fun i => octet i % 2 ^ 64) = octet := by
    funext i
    have hlt := (hoctet i).2
    omega
  rw [inetAddr_parts hparts, hsmall, if_pos fun i => ?_]
  have hlt := (hoctet i).2
  omega

theorem inetText_iff (text : Bytes) :
    InetText text ↔ ∀ part value, Parts text part value → (∀ i, value i % 2 ^ 64 < 256) →
      (∀ i, part i ≠ [] ∧ value i < 2 ^ 64) ∨ ∀ i, value i % 2 ^ 64 = 255 := by
  constructor
  · intro h part value hparts hsmall
    by_cases hnone : inetAddr text = inaddrNone
    · right
      rw [inetAddr_parts hparts, if_pos hsmall, quad_eq_none_iff _ hsmall] at hnone
      exact hnone
    · left
      obtain ⟨octet, ⟨part', hparts', hoctet⟩, -⟩ := h.1.mp hnone
      obtain ⟨rfl, rfl⟩ := hparts.unique hparts'
      intro i
      obtain ⟨hne, hlt⟩ := hoctet i
      exact ⟨hne, by omega⟩
  · intro h
    refine ⟨⟨fun hne => ?_, fun ⟨octet, hdotted, hne⟩ => hdotted.addr ▸ hne⟩, fun octet => Dotted.addr⟩
    obtain ⟨part, value, hparts⟩ := inetAddr_ne_none hne
    have haddr := inetAddr_parts hparts
    by_cases hsmall : ∀ i, value i % 2 ^ 64 < 256
    · rw [if_pos hsmall] at haddr
      obtain hgood | hfull := h part value hparts hsmall
      · have hvalue : (fun i => value i % 2 ^ 64) = value := funext fun i => Nat.mod_eq_of_lt (hgood i).2
        rw [hvalue] at haddr
        refine ⟨value, ⟨part, hparts, fun i => ⟨(hgood i).1, ?_⟩⟩, haddr ▸ hne⟩
        have hlt := hsmall i
        have hv := (hgood i).2
        omega
      · exact absurd (haddr.trans ((quad_eq_none_iff _ hsmall).mpr hfull)) hne
    · exact absurd (haddr.trans (if_neg hsmall)) hne

theorem digitOf_digit : (∀ d < 10, digitOf 10 (Printf.digit 0 d) = some d) ∧ ∀ d < 16, digitOf 16 (Printf.digit 1 d) = some d := by
  decide

theorem numeralFrom_digit {base hex : Nat} (hdigit : ∀ d < base, digitOf base (Printf.digit hex d) = some d) (n : Nat) :
    ∀ d < base, ∀ p, numeralFrom base n (Printf.digit hex d :: p) = numeralFrom base (n * base + d) p := by
  intro d hd p
  rw [numeralFrom, hdigit d hd, Option.bind_some]

theorem numeral_decimal (n : Nat) (h : n < 2 ^ 64) : numeralFrom 10 0 (Printf.decimal n) = some n := by
  have hneg : ¬((n : Int) < 0) := by omega
  rw [Printf.decimal, if_neg hneg, List.nil_append, Int.natAbs_natCast, Printf.int64Len,
    Printf.read_temp (by decide) (numeralFrom_digit digitOf_digit.1) [] (Nat.lt_of_lt_of_le h (by decide))]
  rfl

-- %ud
theorem renders_ud {fmt : Bytes} {args : List Printf.Arg} {w : Bytes} (h : Printf.Renders fmt args w) (x : BitVec 64) :
    Printf.Renders (37 :: 117 :: 100 :: fmt) (.word x :: args) (Printf.decimal (x.setWidth 32).toNat ++ w) := by
  refine .item (i := .num false (x.setWidth 32).toNat 32 0 0) rfl ?_ h
  have hneg : ¬(((x.setWidth 32).toNat : Int) < 0) := by omega
  rw [Printf.decimal, if_neg hneg, Int.natAbs_natCast]
  simp [Printf.emit]

theorem setWidth_octet (p : UInt8) : ((p.toNat : BitVec 64).setWidth 32).toNat = p.toNat := by
  have hlt := p.toNat_lt
  simp only [BitVec.natCast_eq_ofNat, BitVec.toNat_setWidth, BitVec.toNat_ofNat]
  omega

def quadText (p0 p1 p2 p3 : UInt8) : Bytes :=
  Printf.decimal p0.toNat ++ 46 :: (Printf.decimal p1.toNat ++ 46 :: (Printf.decimal p2.toNat ++ 46 :: Printf.decimal p3.toNat))

theorem renders_quad (p0 p1 p2 p3 : UInt8) :
    Printf.Renders (ngxString "%ud.%ud.%ud.%ud") [.word p0.toNat, .word p1.toNat, .word p2.toNat, .word p3.toNat]
      (quadText p0 p1 p2 p3) := by
  have hdot : (37 : UInt8) ∉ [46] := by decide
  have hrender := renders_ud ((renders_ud ((renders_ud ((renders_ud (.done []) p3.toNat).text [46] hdot) p2.toNat).text
    [46] hdot) p1.toNat).text [46] hdot) p0.toNat
  simp only [setWidth_octet, List.append_nil] at hrender
  exact hrender

theorem decimal_length_le {n k : Nat} (hk : k ≤ 20) (h : n < 10 ^ k) (h0 : 0 < k) : (Printf.decimal n).length ≤ k := by
  have hlog : Nat.log 10 n < k := Nat.log_lt_of_lt_pow' (by omega) h
  have hneg : ¬((n : Int) < 0) := by omega
  rw [Printf.decimal_length n (Nat.lt_of_lt_of_le h (Nat.pow_le_pow_right (by decide) hk)), Printf.decimalWidth, if_neg hneg,
    Int.natAbs_natCast]
  omega

theorem quadText_length (p0 p1 p2 p3 : UInt8) : (quadText p0 p1 p2 p3).length ≤ 15 := by
  have hoctet : ∀ p : UInt8, (Printf.decimal p.toNat).length ≤ 3 := fun p =>
    decimal_length_le (by decide) (Nat.lt_of_lt_of_le p.toNat_lt (by decide)) (by decide)
  have h0 := hoctet p0
  have h1 := hoctet p1
  have h2 := hoctet p2
  have h3 := hoctet p3
  simp only [quadText, List.length_append, List.length_cons]
  omega

theorem quadText_dotted (p0 p1 p2 p3 : UInt8) :
    Dotted (quadText p0 p1 p2 p3) ![p0.toNat, p1.toNat, p2.toNat, p3.toNat] := by
  have hsmall : ∀ p : UInt8, p.toNat < 2 ^ 64 := fun p => Nat.lt_of_lt_of_le p.toNat_lt (by decide)
  have hvalue : ∀ p : UInt8, numeralFrom 10 0 (Printf.decimal p.toNat) = some p.toNat := fun p => numeral_decimal _ (hsmall p)
  have hoctet : ∀ p : UInt8, Printf.decimal p.toNat ≠ [] ∧ p.toNat < 256 := fun p =>
    ⟨Printf.decimal_ne_nil _ (hsmall p), p.toNat_lt⟩
  exact ⟨![Printf.decimal p0.toNat, Printf.decimal p1.toNat, Printf.decimal p2.toNat, Printf.decimal p3.toNat],
    ⟨rfl, fun
      | 0 => hvalue p0
      | 1 => hvalue p1
      | 2 => hvalue p2
      | 3 => hvalue p3⟩,
    fun
      | 0 => hoctet p0
      | 1 => hoctet p1
      | 2 => hoctet p2
      | 3 => hoctet p3⟩

-- NGX_INET_ADDRSTRLEN is 15.
theorem inetNtop_eq (p0 p1 p2 p3 : UInt8) {len : Nat} (hlen : 15 ≤ len) :
    inetNtop p0 p1 p2 p3 len = some (quadText p0 p1 p2 p3) := by
  rw [inetNtop, Printf.snprintf, Printf.vslprintf_eq_take (renders_quad p0 p1 p2 p3),
    List.take_of_length_le ((quadText_length p0 p1 p2 p3).trans hlen)]

-- A part without a digit is taken for 0, and a number of 2 to the 64 or more wraps round.
theorem inetAddr_exact_iff (text : Bytes) (p0 p1 p2 p3 : UInt8) :
    (InetText text ↔ ∀ part value, Parts text part value → (∀ i, value i % 2 ^ 64 < 256) →
      (∀ i, part i ≠ [] ∧ value i < 2 ^ 64) ∨ ∀ i, value i % 2 ^ 64 = 255) ∧
    ∀ len, 15 ≤ len → (inetNtop p0 p1 p2 p3 len).map inetAddr = some (quad ![p0.toNat, p1.toNat, p2.toNat, p3.toNat]) := by
  refine ⟨inetText_iff text, fun len hlen => ?_⟩
  rw [inetNtop_eq p0 p1 p2 p3 hlen, Option.map_some, (quadText_dotted p0 p1 p2 p3).addr]

theorem inetAddr_lax : ¬InetText (ngxString "1..2.3") ∧ ¬InetText (ngxString "18446744073709551616.0.0.0") := by
  constructor
  · intro h
    have hparts : Parts (ngxString "1..2.3") ![[49], [], [50], [51]] ![1, 0, 2, 3] := ⟨by decide, by decide⟩
    obtain hgood | hfull := (inetText_iff _).mp h _ _ hparts (by decide)
    · exact (hgood 1).1 rfl
    · exact absurd (hfull 0) (by decide)
  · intro h
    have hparts : Parts (ngxString "18446744073709551616.0.0.0") ![ngxString "18446744073709551616", [48], [48], [48]]
        ![2 ^ 64, 0, 0, 0] := ⟨by decide, by decide⟩
    obtain hgood | hfull := (inetText_iff _).mp h _ _ hparts (by decide)
    · exact absurd (hgood 0).2 (by decide)
    · exact absurd (hfull 0) (by decide)

theorem inetAddr_lt (text : Bytes) : inetAddr text < 2 ^ 32 := by
  have hmod : ∀ n, n % 2 ^ 32 < 2 ^ 32 := fun n => Nat.mod_lt n (by decide)
  rw [inetAddr, inaddrNone]
  split
  · decide
  · split
    · decide
    · split
      · exact hmod _
      · decide

def Inet6.Room (s : Inet6) : Prop := s.out.length + 2 * s.n = 16 ∧ 1 ≤ s.n

theorem store_room {s : Inet6} (h : s.Room) (hn : s.n - 1 ≠ 0) (word : Nat) :
    (s.store word).length + 2 * (s.n - 1) = 16 ∧ 1 ≤ s.n - 1 := by
  obtain ⟨hlen, hpos⟩ := h
  simp only [Inet6.store, List.length_append, List.length_cons, List.length_nil]
  omega

theorem inet6Loop_room {text : Bytes} {s out : Inet6} (hroom : s.Room) (h : inet6Loop text s = some out) : out.Room := by
  induction text generalizing s with
  | nil =>
      rw [inet6Loop] at h
      cases h
      exact hroom
  | cons c rest ih =>
      rw [inet6Loop] at h
      split at h
      · split at h
        · split at h
          next hn =>
              exact ih (s := { s with out := s.store s.word, digit := some rest, n := s.n - 1, nibbles := 0, word := 0 })
                (store_room hroom hn _) h
          next => cases h
        · split at h
          · exact ih (s := { s with digit := some rest, zero := some s.out.length }) hroom h
          · cases h
      · split at h
        · split at h
          · cases h
          · split at h
            next => cases h
            next hn =>
                dsimp only at h
                split at h
                · cases h
                · cases h
                  exact store_room hroom (by omega) _
        · split at h
          · cases h
          · split at h
            · cases h
            next d _ => exact ih (s := { s with nibbles := s.nibbles + 1, word := s.word * 16 + d }) hroom h

theorem inet6Addr_length {text addr : Bytes} (h : inet6Addr text = some addr) : addr.length = 16 := by
  unfold inet6Addr at h
  split at h
  · cases h
  · split at h
    · cases h
    next s hloop =>
        obtain ⟨hlen, hpos⟩ := inet6Loop_room (s := {}) ⟨rfl, by decide⟩ hloop
        have hstore : (s.store s.word).length = s.out.length + 2 := by simp [Inet6.store]
        split at h
        · cases h
        · dsimp only at h
          split at h
          next =>
              split at h
              · cases h
                simp only [List.length_append, List.length_take, List.length_replicate, List.length_drop, hstore]
                omega
              · cases h
          next =>
              split at h
              · cases h
              · cases h
                omega

-- Bit i of an address, counted from the highest one
def bitAt (bytes : Bytes) (i : Nat) : Bool := (bytes.getD (i / 8) 0).toNat.testBit (7 - i % 8)

-- The mask of the first s of n bits
theorem mask_testBit {n s i : Nat} (hs : s ≤ n) (hi : i < n) : (2 ^ n - 2 ^ (n - s)).testBit (n - 1 - i) = decide (i < s) := by
  have hmask : 2 ^ n - 2 ^ (n - s) = (2 ^ s - 1) <<< (n - s) := by
    rw [Nat.shiftLeft_eq, Nat.sub_mul, Nat.one_mul, ← Nat.pow_add, Nat.add_sub_of_le hs]
  rw [hmask, Nat.testBit_shiftLeft, Nat.testBit_two_pow_sub_one, ← Bool.decide_and, decide_eq_decide]
  omega

theorem inMask_testBit (k : Nat) (hk : k ≤ 32) :
    inMask k < 2 ^ 32 ∧ ∀ i < 32, (inMask k).testBit (31 - i) = decide (i < k) := by
  obtain rfl | hpos := Nat.eq_zero_or_pos k
  · exact ⟨by decide, fun i _ => by simp [inMask]⟩
  · have hcount : ((32 - (k : Int)) % 32).toNat = 32 - k := by omega
    have hlt : 2 ^ 32 - 2 ^ (32 - k) < 2 ^ 32 := Nat.sub_lt (Nat.two_pow_pos 32) (Nat.two_pow_pos _)
    have hmask : inMask k = 2 ^ 32 - 2 ^ (32 - k) := by
      rw [inMask, if_pos (by omega), hcount, Nat.mod_eq_of_lt hlt]
    rw [hmask]
    exact ⟨hlt, fun i hi => mask_testBit hk hi⟩

def byteMask (s : Nat) : UInt8 := UInt8.ofNat (2 ^ 8 - 2 ^ (8 - s))

theorem byteMask_testBit (s : Nat) (hs : s ≤ 8) (i : Nat) (hi : i < 8) :
    (byteMask s).toNat.testBit (7 - i) = decide (i < s) := by
  have hlt : 2 ^ 8 - 2 ^ (8 - s) < 2 ^ 8 := Nat.sub_lt (Nat.two_pow_pos 8) (Nat.two_pow_pos _)
  rw [byteMask, UInt8.toNat_ofNat_of_lt' hlt]
  exact mask_testBit hs hi

theorem maskLoop_cons (byte : UInt8) (addr : Bytes) (k : Nat) :
    maskLoop (byte :: addr) k =
      ((byte &&& byteMask (min k 8)) :: (maskLoop addr (k - 8 : Nat)).1, byteMask (min k 8) :: (maskLoop addr (k - 8 : Nat)).2.1,
        byte ≠ byte &&& byteMask (min k 8) || (maskLoop addr (k - 8 : Nat)).2.2) := by
  rw [maskLoop]
  by_cases hk : (k : Int) > 8
  · have hrest : (k : Int) - 8 = ((k - 8 : Nat) : Int) := by omega
    have hmin : min k 8 = 8 := by omega
    simp only [if_pos hk, hrest, hmin, byteMask]
    rfl
  · have hrest : (k : Int) - k = ((k - 8 : Nat) : Int) := by omega
    have hmin : min k 8 = k := by omega
    have hshift : (8 - (k : Int)).toNat = 8 - k := by omega
    simp only [if_neg hk, hrest, hmin, byteMask, hshift]

theorem maskLoop_addr (addr : Bytes) (k : Nat) :
    (maskLoop addr k).1 = List.zipWith (· &&& ·) addr (maskLoop addr k).2.1 ∧ (maskLoop addr k).2.1.length = addr.length ∧
      ((maskLoop addr k).2.2 = true ↔ (maskLoop addr k).1 ≠ addr) := by
  induction addr generalizing k with
  | nil => simp [maskLoop]
  | cons byte addr ih =>
      obtain ⟨haddr, hlen, hdone⟩ := ih (k - 8)
      rw [maskLoop_cons]
      refine ⟨?_, ?_, ?_⟩
      · dsimp only
        rw [List.zipWith_cons_cons, ← haddr]
      · simp [hlen]
      · simp only [Bool.or_eq_true, decide_eq_true_eq, hdone, ne_eq, List.cons.injEq]
        rw [not_and_or, eq_comm (a := byte)]

theorem maskLoop_bitAt (addr : Bytes) (k : Nat) {i : Nat} (hi : i < 8 * addr.length) :
    bitAt (maskLoop addr k).2.1 i = decide (i < k) := by
  induction addr generalizing k i with
  | nil => exact absurd hi (by simp)
  | cons byte addr ih =>
      rw [maskLoop_cons, bitAt]
      dsimp only
      by_cases hhead : i < 8
      · have hdiv : i / 8 = 0 := by omega
        have hmod : i % 8 = i := by omega
        rw [hdiv, hmod, List.getD_cons_zero, byteMask_testBit _ (by omega) i hhead, decide_eq_decide]
        omega
      · have hlen : (byte :: addr).length = addr.length + 1 := rfl
        have hdiv : i / 8 = (i - 8) / 8 + 1 := by omega
        have hmod : i % 8 = (i - 8) % 8 := by omega
        have htail := ih (k - 8) (i := i - 8) (by omega)
        rw [hdiv, hmod, List.getD_cons_succ]
        rw [bitAt] at htail
        rw [htail, decide_eq_decide]
        omega

-- The number behind '/', or all bits
def Prefixed (text : Bytes) (full k : Nat) : Prop :=
  match maskText text with
  | none => k = full
  | some mask => numeral 10 mask = some k

-- What is asked for of a network that is returned
def CidrText (text : Bytes) : Prop :=
  ∀ done cidr, ptocidr text = some (done, cidr) →
    match cidr with
    | .inet addr mask =>
        ∃ k ≤ 32, Prefixed text 32 k ∧ (mask < 2 ^ 32 ∧ ∀ i < 32, mask.testBit (31 - i) = decide (i < k)) ∧
          inetAddr (addrText text) ≠ inaddrNone ∧ addr = inetAddr (addrText text) &&& mask ∧
          (done = true ↔ addr ≠ inetAddr (addrText text))
    | .inet6 addr mask =>
        ∃ k ≤ 128, Prefixed text 128 k ∧ (mask.length = 16 ∧ ∀ i < 128, bitAt mask i = decide (i < k)) ∧
          ∃ parsed, inet6Addr (addrText text) = some parsed ∧ addr = List.zipWith (· &&& ·) parsed mask ∧
            (done = true ↔ addr ≠ parsed)

-- A prefix length that is not more than the bits of the address, or that ngx_atoi refuses
def PrefixFits (full k : Nat) : Prop := k ≤ full ∨ 2 ^ 63 ≤ k % 2 ^ 64

theorem atoi_cases (mask : Bytes) :
    atoi mask = -1 ∨ ∃ k : Nat, numeral 10 mask = some k ∧ k % 2 ^ 64 < 2 ^ 63 ∧ atoi mask = (k % 2 ^ 64 : Nat) := by
  rw [atoi, decimal_eq]
  cases numeral 10 mask with
  | none => exact Or.inl rfl
  | some k =>
      dsimp only
      rw [checked_eq]
      split_ifs with hsmall
      · exact Or.inr ⟨k, rfl, hsmall, rfl⟩
      · exact Or.inl rfl

theorem atoi_small {mask : Bytes} {k : Nat} (h : numeral 10 mask = some k) (hk : k % 2 ^ 64 < 2 ^ 63) :
    atoi mask = (k % 2 ^ 64 : Nat) := by
  rw [atoi, decimal_eq, h]
  dsimp only
  rw [checked_eq, if_pos hk]

theorem and_full {addr : Nat} (h : addr < 2 ^ 32) : addr &&& 0xffffffff = addr := by
  have hmask : addr &&& 2 ^ 32 - 1 = addr := by rw [Nat.and_two_pow_sub_one_eq_mod, Nat.mod_eq_of_lt h]
  exact hmask

theorem zipWith_and_full (addr : Bytes) : List.zipWith (· &&& ·) addr (List.replicate addr.length 0xff) = addr := by
  have hbyte : ∀ c : UInt8, c &&& 0xff = c := fun c => UInt8.and_neg_one
  induction addr with
  | nil => rfl
  | cons c addr ih => rw [List.length_cons, List.replicate_succ, List.zipWith_cons_cons, ih, hbyte]

theorem full_bitAt (i : Nat) (hi : i < 128) : bitAt (List.replicate 16 0xff) i = decide (i < 128) := by
  have hbyte : (List.replicate 16 (0xff : UInt8)).getD (i / 8) 0 = 0xff := by
    rw [List.getD_eq_getElem?_getD, List.getElem?_replicate, if_pos (by omega), Option.getD_some]
  have hbit : ∀ k < 8, (0xff : UInt8).toNat.testBit k = true := by decide
  rw [bitAt, hbyte, hbit _ (by omega), decide_eq_true hi]

-- Only a prefix length that ngx_atoi refuses may be more than the bits of the address.
def CidrFits (text : Bytes) : Prop :=
  ∀ mask k, maskText text = some mask → numeral 10 mask = some k →
    (inetAddr (addrText text) ≠ inaddrNone → PrefixFits 32 k) ∧
      (inetAddr (addrText text) = inaddrNone → inet6Addr (addrText text) ≠ none → PrefixFits 128 k)

theorem Prefixed.eq {text mask : Bytes} {full k k' : Nat} (hmask : maskText text = some mask) (hk : numeral 10 mask = some k)
    (h : Prefixed text full k') : k' = k := by
  rw [Prefixed, hmask] at h
  exact Option.some.inj (h.symm.trans hk)

theorem CidrText.fits {text : Bytes} (h : CidrText text) : CidrFits text := by
  intro mask k hmask hk
  by_cases hbig : 2 ^ 63 ≤ k % 2 ^ 64
  · exact ⟨fun _ => Or.inr hbig, fun _ _ => Or.inr hbig⟩
  have hatoi := atoi_small hk (by omega)
  constructor
  · intro haddr
    obtain ⟨done, addr, m, hrun⟩ : ∃ done addr m, ptocidr text = some (done, .inet addr m) := by
      rw [ptocidr, if_pos haddr, hmask]
      dsimp only
      rw [if_neg (by omega)]
      split
      · exact ⟨_, _, _, rfl⟩
      · exact ⟨_, _, _, rfl⟩
    obtain ⟨k', hle, hprefixed, -⟩ := h _ _ hrun
    exact Or.inl (hprefixed.eq hmask hk ▸ hle)
  · intro haddr haddr6
    obtain ⟨parsed, hparsed⟩ := Option.ne_none_iff_exists'.mp haddr6
    obtain ⟨done, addr, m, hrun⟩ : ∃ done addr m, ptocidr text = some (done, .inet6 addr m) := by
      rw [ptocidr, if_neg (not_not.mpr haddr), hparsed, hmask]
      dsimp only
      rw [if_neg (by omega)]
      exact ⟨_, _, _, rfl⟩
    obtain ⟨k', hle, hprefixed, -⟩ := h _ _ hrun
    exact Or.inl (hprefixed.eq hmask hk ▸ hle)

-- A prefix length that is read and fits is the shift.
theorem shift_eq {text mask : Bytes} {full : Nat} (hmask : maskText text = some mask) (hread : atoi mask ≠ -1)
    (hfits : ∀ k, numeral 10 mask = some k → PrefixFits full k) (hfull : full < 2 ^ 63) :
    ∃ k ≤ full, Prefixed text full k ∧ atoi mask = k := by
  obtain herror | ⟨k, hk, hsmall, hatoi⟩ := atoi_cases mask
  · exact absurd herror hread
  · obtain hle | hbig := hfits k hk
    · rw [Nat.mod_eq_of_lt (by omega)] at hatoi
      exact ⟨k, hle, by rw [Prefixed, hmask]; exact hk, hatoi⟩
    · omega

theorem cidrText_inet {text : Bytes} (haddr : inetAddr (addrText text) ≠ inaddrNone) (h : CidrFits text) : CidrText text := by
  intro done cidr hrun
  rw [ptocidr, if_pos haddr] at hrun
  cases hmask : maskText text with
  | none =>
      rw [hmask] at hrun
      cases hrun
      have hfull : inMask (32 : Nat) = 0xffffffff := by decide
      exact ⟨32, Nat.le_refl 32, by rw [Prefixed, hmask], hfull ▸ inMask_testBit 32 (Nat.le_refl 32), haddr,
        (and_full (inetAddr_lt _)).symm, by simp⟩
  | some mask =>
      rw [hmask] at hrun
      dsimp only at hrun
      split at hrun
      next => cases hrun
      next hread =>
          obtain ⟨k, hle, hprefixed, hshift⟩ := shift_eq hmask hread (fun k hk => (h mask k hmask hk).1 haddr) (by decide)
          rw [hshift] at hrun
          split at hrun
          next heq =>
              cases hrun
              exact ⟨k, hle, hprefixed, inMask_testBit k hle, haddr, heq, by simp⟩
          next hne =>
              cases hrun
              refine ⟨k, hle, hprefixed, inMask_testBit k hle, haddr, rfl, ?_⟩
              simpa using fun heq => hne heq.symm

theorem cidrText_inet6 {text : Bytes} (haddr : inetAddr (addrText text) = inaddrNone) (h : CidrFits text) : CidrText text := by
  intro done cidr hrun
  rw [ptocidr, if_neg (not_not.mpr haddr)] at hrun
  cases hparsed : inet6Addr (addrText text) with
  | none =>
      rw [hparsed] at hrun
      cases hrun
  | some parsed =>
      rw [hparsed] at hrun
      have hlen := inet6Addr_length hparsed
      cases hmask : maskText text with
      | none =>
          rw [hmask] at hrun
          cases hrun
          refine ⟨128, Nat.le_refl 128, by rw [Prefixed, hmask], ⟨List.length_replicate, full_bitAt⟩, parsed, rfl, ?_, by simp⟩
          rw [← hlen, zipWith_and_full]
      | some mask =>
          rw [hmask] at hrun
          dsimp only at hrun
          split at hrun
          next => cases hrun
          next hread =>
              have hfits : ∀ k, numeral 10 mask = some k → PrefixFits 128 k := fun k hk =>
                (h mask k hmask hk).2 haddr (by rw [hparsed]; exact Option.some_ne_none parsed)
              obtain ⟨k, hle, hprefixed, hshift⟩ := shift_eq hmask hread hfits (by decide)
              rw [hshift] at hrun
              cases hrun
              obtain ⟨haddrs, hmasks, hdone⟩ := maskLoop_addr parsed k
              exact ⟨k, hle, hprefixed, ⟨hmasks.trans hlen, fun i hi => maskLoop_bitAt parsed k (by omega)⟩, parsed, rfl,
                haddrs, hdone⟩

theorem ptocidr_exact_iff (text : Bytes) : CidrText text ↔ CidrFits text := by
  refine ⟨CidrText.fits, fun h => ?_⟩
  by_cases haddr : inetAddr (addrText text) = inaddrNone
  · exact cidrText_inet6 haddr h
  · exact cidrText_inet haddr h

-- The shift counts modulo 32, so that a prefix of 33 bits keeps one.
theorem prefix_unchecked : ¬CidrText (ngxString "10.0.0.0/33") ∧ ¬CidrText (ngxString "::1/129") := by
  have hmask : maskText (ngxString "10.0.0.0/33") = some [51, 51] ∧ maskText (ngxString "::1/129") = some [49, 50, 57] := by
    decide
  have hk : numeral 10 [51, 51] = some 33 ∧ numeral 10 [49, 50, 57] = some 129 := by decide +kernel
  have haddr : inetAddr (addrText (ngxString "10.0.0.0/33")) ≠ inaddrNone ∧
      inetAddr (addrText (ngxString "::1/129")) = inaddrNone ∧ inet6Addr (addrText (ngxString "::1/129")) ≠ none := by
    decide +kernel
  refine ⟨fun h => ?_, fun h => ?_⟩
  · obtain hle | hbig := (h.fits _ _ hmask.1 hk.1).1 haddr.1
    · omega
    · omega
  · obtain hle | hbig := (h.fits _ _ hmask.2 hk.2).2 haddr.2.1 haddr.2.2
    · omega
    · omega

end Nginx.Inet
