import Nginx.Core.Inet

namespace Nginx.Inet

open Number

-- NGX_INET6_ADDRSTRLEN
def inet6AddrStrlen : Nat := (ngxString "ffff:ffff:ffff:ffff:ffff:ffff:255.255.255.255").length

-- The variables of the search for zero groups, where (ngx_uint_t) -1 is none
structure ZeroRun where
  zero : Option Nat := none
  last : Option Nat := none
  max : Nat := 1
  n : Nat := 0

-- if (max < n) { zero = last; max = n; }
def ZeroRun.close (s : ZeroRun) : ZeroRun := if s.max < s.n then { s with zero := s.last, max := s.n } else s

-- for (i = 0; i < 16; i += 2), with the bytes from p[i] on
def zeroLoop : Nat → Bytes → ZeroRun → ZeroRun
  | i, hi :: lo :: p, s =>
      if hi ≠ 0 ∨ lo ≠ 0 then zeroLoop (i + 2) p { s.close with n := 0 }
      else zeroLoop (i + 2) p { s with last := if s.n = 0 then some i else s.last, n := s.n + 1 }
  | _, _, s => s

def zeroRun (p : Bytes) : ZeroRun := (zeroLoop 0 p {}).close

-- The condition for a dotted tail behind leading zeros
def dottedTail (run : ZeroRun) (p : Bytes) : Bool :=
  run.max = 5 ∧ p.getD 10 0 = 0xff ∧ p.getD 11 0 = 0xff ∨ run.max = 6 ∨
    run.max = 7 ∧ p.getD 14 0 ≠ 0 ∧ p.getD 15 0 ≠ 1

-- for (i = 0; i < n; i += 2), with the bytes from p[i] on and those written to text. Each iteration takes two bytes or
-- more, so their number bounds the iterations.
def groupLoop (text : Nat) (run : ZeroRun) (n : Nat) : Nat → Nat → Bytes → Bytes → Option Bytes
  | fuel + 1, i, hi :: lo :: p, dst =>
      if n ≤ i then some dst
      else if run.zero = some i then
        groupLoop text run n fuel (i + (run.max - 1) * 2 + 2) ((hi :: lo :: p).drop ((run.max - 1) * 2 + 2)) (dst ++ [58])
      else do
        let group ← Printf.sprintf (text + dst.length) (ngxString "%uxi") [.word (hi.toNat * 256 + lo.toNat : Nat)]
        groupLoop text run n fuel (i + 2) p (dst ++ group ++ if i < 14 then [58] else [])
  | _, _, _, dst => some dst

-- ngx_inet6_ntop: the bytes written to text, which is an address
def inet6Ntop (p : Bytes) (text len : Nat) : Option Bytes :=
  if len < inet6AddrStrlen then some []
  else do
    let run := zeroRun p
    let n := if run.zero = some 0 ∧ dottedTail run p then 12 else 16
    let dst ← groupLoop text run n p.length 0 p (if run.zero = some 0 then [58] else [])
    if n = 12 then
      let quad ← Printf.sprintf (text + dst.length) (ngxString "%ud.%ud.%ud.%ud")
        [.word (p.getD 12 0).toNat, .word (p.getD 13 0).toNat, .word (p.getD 14 0).toNat, .word (p.getD 15 0).toNat]
      return dst ++ quad
    else return dst

-- The groups of a text, each with its colon, and with a colon between them
def hexText (hi lo : UInt8) : Bytes := Printf.temp 16 1 Printf.int64Len (hi.toNat * 256 + lo.toNat) []

def groups : Bytes → Bytes
  | hi :: lo :: p => hexText hi lo ++ 58 :: groups p
  | _ => []

def joined : Bytes → Bytes
  | [hi, lo] => hexText hi lo
  | hi :: lo :: p => hexText hi lo ++ 58 :: joined p
  | _ => []

theorem exists_group {p : Bytes} {k : Nat} (h : p.length = 2 * (k + 1)) : ∃ hi lo rest, p = hi :: lo :: rest ∧ rest.length = 2 * k := by
  match p with
  | [] => cases h
  | [_] =>
      rw [List.length_singleton] at h
      omega
  | hi :: lo :: rest =>
      simp only [List.length_cons] at h
      exact ⟨hi, lo, rest, rfl, by omega⟩

theorem group_lt (hi lo : UInt8) : hi.toNat * 256 + lo.toNat < 16 ^ 4 := by
  have hhi := hi.toNat_lt
  have hlo := lo.toNat_lt
  omega

theorem hexText_length (hi lo : UInt8) : 0 < (hexText hi lo).length ∧ (hexText hi lo).length ≤ 4 := by
  have hlt := group_lt hi lo
  have hlog : Nat.log 16 (hi.toNat * 256 + lo.toNat) < 4 := Nat.log_lt_of_lt_pow' (by decide) hlt
  have hlen := Printf.temp_length 16 1 (by decide) 19 (hi.toNat * 256 + lo.toNat) [] (Nat.lt_of_lt_of_le hlt (by decide))
  rw [hexText, Printf.int64Len, hlen]
  simp only [List.length_nil]
  omega

theorem numeral_hexText (hi lo : UInt8) : numeralFrom 16 0 (hexText hi lo) = some (hi.toNat * 256 + lo.toNat) := by
  rw [hexText, Printf.int64Len,
    Printf.read_temp (by decide) (numeralFrom_digit digitOf_digit.2) [] (Nat.lt_of_lt_of_le (group_lt hi lo) (by decide))]
  rfl

-- %uxi
theorem renders_uxi (hi lo : UInt8) :
    Printf.Renders (ngxString "%uxi") [.word (hi.toNat * 256 + lo.toNat : Nat)] (hexText hi lo) := by
  have hlt := group_lt hi lo
  have hword : (((hi.toNat * 256 + lo.toNat : Nat) : BitVec 64).setWidth 64).toNat = hi.toNat * 256 + lo.toNat := by
    rw [BitVec.setWidth_eq, BitVec.natCast_eq_ofNat, BitVec.toNat_ofNat]
    exact Nat.mod_eq_of_lt (by omega)
  have hitem : Printf.next (ngxString "%uxi") [.word (hi.toNat * 256 + lo.toNat : Nat)] =
      some (.num false (((hi.toNat * 256 + lo.toNat : Nat) : BitVec 64).setWidth 64).toNat 32 1 0, [], []) := rfl
  have hemit : Printf.emit (.num false (((hi.toNat * 256 + lo.toNat : Nat) : BitVec 64).setWidth 64).toNat 32 1 0) =
      some (hexText hi lo) := by
    rw [hword]
    simp [Printf.emit, hexText]
  have hrender := Printf.Renders.item hitem hemit (.done [])
  rwa [List.append_nil] at hrender

section

variable {text : Nat} (htext : text + inet6AddrStrlen < 2 ^ 64)
include htext

theorem sprintf_group {dst : Bytes} (hi lo : UInt8) (hdst : dst.length + 4 ≤ inet6AddrStrlen) :
    Printf.sprintf (text + dst.length) (ngxString "%uxi") [.word (hi.toNat * 256 + lo.toNat : Nat)] = some (hexText hi lo) := by
  have hlen := (hexText_length hi lo).2
  rw [Printf.sprintf, Printf.vslprintf_eq_take (renders_uxi hi lo), List.take_of_length_le (by omega)]

theorem sprintf_quad (dst : Bytes) (p0 p1 p2 p3 : UInt8) (hdst : dst.length + 15 ≤ inet6AddrStrlen) :
    Printf.sprintf (text + dst.length) (ngxString "%ud.%ud.%ud.%ud")
      [.word p0.toNat, .word p1.toNat, .word p2.toNat, .word p3.toNat] = some (quadText p0 p1 p2 p3) := by
  have hlen := quadText_length p0 p1 p2 p3
  rw [Printf.sprintf, Printf.vslprintf_eq_take (renders_quad p0 p1 p2 p3), List.take_of_length_le (by omega)]

end

theorem groups_length {p : Bytes} {k : Nat} (h : p.length = 2 * k) : (groups p).length ≤ 5 * k := by
  induction k generalizing p with
  | zero =>
      obtain rfl := List.length_eq_zero_iff.mp h
      exact Nat.zero_le _
  | succ k ih =>
      obtain ⟨hi, lo, rest, rfl, hrest⟩ := exists_group h
      have hlen := (hexText_length hi lo).2
      have htail := ih hrest
      rw [groups, List.length_append, List.length_cons]
      omega

theorem joined_length {p : Bytes} {k : Nat} (h : p.length = 2 * k) : (joined p).length ≤ 5 * k := by
  induction k generalizing p with
  | zero =>
      obtain rfl := List.length_eq_zero_iff.mp h
      exact Nat.zero_le _
  | succ k ih =>
      obtain ⟨hi, lo, rest, rfl, hrest⟩ := exists_group h
      have hlen := (hexText_length hi lo).2
      have htail := ih hrest
      cases rest with
      | nil =>
          rw [joined]
          omega
      | cons c rest =>
          rw [joined, List.length_append, List.length_cons]
          · omega
          · exact List.cons_ne_nil c rest

section

variable {text : Nat} {run : ZeroRun} {n : Nat}

theorem groupLoop_nil (fuel i : Nat) (dst : Bytes) : groupLoop text run n fuel i [] dst = some dst := by
  cases fuel <;> rfl

theorem groupLoop_end {i : Nat} (h : n ≤ i) (fuel : Nat) (p dst : Bytes) : groupLoop text run n fuel i p dst = some dst := by
  cases fuel with
  | zero => rfl
  | succ fuel =>
      match p with
      | [] => rfl
      | [_] => rfl
      | hi :: lo :: p => rw [groupLoop, if_pos h]

-- The run of zeros is one more colon.
theorem groupLoop_zero (text : Nat) (run : ZeroRun) {i : Nat} (fuel : Nat) (rest dst : Bytes) (hn : i < n) (hrun : run.zero = some i) (hmax : 1 ≤ run.max)
    (hfuel : 1 ≤ fuel) :
    groupLoop text run n fuel i (List.replicate (2 * run.max) 0 ++ rest) dst =
      groupLoop text run n (fuel - 1) (i + 2 * run.max) rest (dst ++ [58]) := by
  obtain ⟨fuel, rfl⟩ := Nat.exists_eq_add_of_le' hfuel
  obtain ⟨m, hm⟩ := Nat.exists_eq_add_of_le' hmax
  have hcons : List.replicate (2 * run.max) 0 ++ rest = 0 :: 0 :: (List.replicate (2 * m) (0 : UInt8) ++ rest) := by
    rw [hm, Nat.mul_succ]
    rfl
  have hdrop : (List.replicate (2 * run.max) 0 ++ rest).drop ((run.max - 1) * 2 + 2) = rest := by
    have htwo : (run.max - 1) * 2 + 2 = 2 * run.max := by omega
    rw [htwo, List.drop_left' List.length_replicate]
  have hnext : i + (run.max - 1) * 2 + 2 = i + 2 * run.max := by omega
  rw [hcons, groupLoop, if_neg (by omega), if_pos hrun, ← hcons, hdrop, hnext, Nat.add_sub_cancel]

variable (htext : text + inet6AddrStrlen < 2 ^ 64)
include htext

theorem groupLoop_group {m fuel : Nat} (hi lo : UInt8) (p dst : Bytes) (hm : m < 8) (hn : 2 * m < n) (hrun : run.zero ≠ some (2 * m))
    (hdst : dst.length ≤ 2 + 5 * m) (hfuel : 1 ≤ fuel) :
    groupLoop text run n fuel (2 * m) (hi :: lo :: p) dst =
      groupLoop text run n (fuel - 1) (2 * (m + 1)) p (dst ++ hexText hi lo ++ if m < 7 then [58] else []) := by
  have hstrlen : inet6AddrStrlen = 45 := by decide
  obtain ⟨fuel, rfl⟩ := Nat.exists_eq_add_of_le' hfuel
  have hlast : 2 * m < 14 ↔ m < 7 := by omega
  rw [groupLoop, if_neg (by omega), if_neg hrun, sprintf_group htext hi lo (by omega), Option.bind_eq_bind, Option.bind_some]
  simp only [hlast]
  rfl

theorem groupLoop_groups {A : Bytes} {k m : Nat} (fuel : Nat) (rest dst : Bytes) (hA : A.length = 2 * k) (hm : m + k ≤ 7)
    (hn : 2 * (m + k) ≤ n) (hrun : ∀ j, m ≤ j → j < m + k → run.zero ≠ some (2 * j)) (hdst : dst.length ≤ 2 + 5 * m)
    (hfuel : k ≤ fuel) :
    groupLoop text run n fuel (2 * m) (A ++ rest) dst = groupLoop text run n (fuel - k) (2 * (m + k)) rest (dst ++ groups A) := by
  induction k generalizing A m fuel dst with
  | zero =>
      obtain rfl := List.length_eq_zero_iff.mp hA
      simp [groups]
  | succ k ih =>
      obtain ⟨hi, lo, A, rfl, hrest⟩ := exists_group hA
      have hlen := (hexText_length hi lo).2
      have hstep := groupLoop_group (n := n) htext hi lo (A ++ rest) dst (by omega) (by omega) (hrun m (by omega) (by omega)) hdst
        (by omega : 1 ≤ fuel)
      have hgo := ih (m := m + 1) (fuel - 1) (dst ++ hexText hi lo ++ [58]) hrest (by omega) (by omega)
        (fun j hj hjk => hrun j (by omega) (by omega))
        (by simp only [List.length_append, List.length_cons, List.length_nil]; omega) (by omega)
      have hfuel' : fuel - 1 - k = fuel - (k + 1) := by omega
      have hm' : m + 1 + k = m + (k + 1) := by omega
      rw [List.cons_append, List.cons_append, hstep, if_pos (by omega), hgo, hfuel', hm', groups]
      simp

theorem groupLoop_joined {B : Bytes} {k m : Nat} (fuel : Nat) (dst : Bytes) (hB : B.length = 2 * k) (hm : m + k = 8) (hn : 16 ≤ n)
    (hrun : ∀ j, m ≤ j → run.zero ≠ some (2 * j)) (hdst : dst.length ≤ 2 + 5 * m) (hfuel : k ≤ fuel) :
    groupLoop text run n fuel (2 * m) B dst = some (dst ++ joined B) := by
  induction k generalizing B m fuel dst with
  | zero =>
      obtain rfl := List.length_eq_zero_iff.mp hB
      rw [groupLoop_nil, joined, List.append_nil]
      · rintro _ _ ⟨⟩
      · rintro _ _ _ ⟨⟩
  | succ k ih =>
      obtain ⟨hi, lo, B, rfl, hrest⟩ := exists_group hB
      have hlen := (hexText_length hi lo).2
      have hstep := groupLoop_group (n := n) htext hi lo B dst (by omega) (by omega) (hrun m (by omega)) hdst
        (by omega : 1 ≤ fuel)
      rw [hstep]
      cases B with
      | nil =>
          rw [List.length_nil] at hrest
          rw [if_neg (by omega), groupLoop_nil, joined, List.append_nil]
      | cons c B =>
          have hk : k ≠ 0 := by
            rintro rfl
            cases hrest
          rw [if_pos (by omega), ih _ _ hrest (by omega) (fun j hj => hrun j (by omega))
            (by simp only [List.length_append, List.length_cons, List.length_nil]; omega) (by omega), joined]
          · simp
          · exact List.cons_ne_nil c B

end

-- What the search has found in the bytes before i
structure ZeroRun.Sound (s : ZeroRun) (pre : Bytes) : Prop where
  last_eq : s.n = 0 ∨ ∃ A : Bytes, s.last = some A.length ∧ A.length % 2 = 0 ∧ pre = A ++ List.replicate (2 * s.n) 0
  zero_eq : s.zero = none ∨ ∃ A B : Bytes, s.zero = some A.length ∧ A.length % 2 = 0 ∧ 2 ≤ s.max ∧
    pre = A ++ List.replicate (2 * s.max) 0 ++ B
  max_pos : 1 ≤ s.max

theorem ZeroRun.Sound.close {s : ZeroRun} {pre : Bytes} (h : s.Sound pre) : s.close.Sound pre := by
  rw [ZeroRun.close]
  split
  next hlt =>
      have hmax := h.max_pos
      obtain hzero | ⟨A, hlast, hA, hpre⟩ := h.last_eq
      · omega
      · exact ⟨h.last_eq, Or.inr ⟨A, [], hlast, hA, by dsimp only; omega, by simpa using hpre⟩, by dsimp only; omega⟩
  next => exact h

theorem replicate_succ_two (n : Nat) : List.replicate (2 * (n + 1)) (0 : UInt8) = List.replicate (2 * n) 0 ++ [0, 0] := by
  rw [Nat.mul_succ, List.replicate_add]
  rfl

theorem zeroLoop_sound {p pre : Bytes} {k : Nat} {s : ZeroRun} (hp : p.length = 2 * k) (hpre : pre.length % 2 = 0) (h : s.Sound pre) :
    (zeroLoop pre.length p s).Sound (pre ++ p) := by
  induction k generalizing p pre s with
  | zero =>
      obtain rfl := List.length_eq_zero_iff.mp hp
      rw [zeroLoop, List.append_nil]
      · exact h
      · rintro _ _ _ ⟨⟩
  | succ k ih =>
      obtain ⟨hi, lo, p, rfl, hrest⟩ := exists_group hp
      have hlen : (pre ++ [hi, lo]).length = pre.length + 2 := by simp
      have happend : pre ++ hi :: lo :: p = pre ++ [hi, lo] ++ p := by simp
      rw [zeroLoop, happend, ← hlen]
      split
      next hne =>
          refine ih hrest (by omega) ⟨Or.inl rfl, ?_, h.close.max_pos⟩
          obtain hnone | ⟨A, B, hzero, hA, hmax, hB⟩ := h.close.zero_eq
          · exact Or.inl hnone
          · exact Or.inr ⟨A, B ++ [hi, lo], hzero, hA, hmax, by dsimp only; rw [← List.append_assoc, ← hB]⟩
      next heq =>
          obtain ⟨rfl, rfl⟩ : hi = 0 ∧ lo = 0 := by simpa using heq
          refine ih hrest (by omega) ⟨Or.inr ?_, ?_, h.max_pos⟩
          · dsimp only
            by_cases hn : s.n = 0
            · exact ⟨pre, by rw [if_pos hn], hpre, by rw [hn]; rfl⟩
            · obtain hzero | ⟨A, hlast, hA, hB⟩ := h.last_eq
              · exact absurd hzero hn
              · exact ⟨A, by rw [if_neg hn, hlast], hA, by rw [replicate_succ_two, ← List.append_assoc, ← hB]⟩
          · obtain hnone | ⟨A, B, hzero, hA, hmax, hB⟩ := h.zero_eq
            · exact Or.inl hnone
            · exact Or.inr ⟨A, B ++ [0, 0], hzero, hA, hmax, by dsimp only; rw [← List.append_assoc, ← hB]⟩

theorem zeroRun_sound {p : Bytes} (hp : p.length = 16) : (zeroRun p).Sound p := by
  have hstart : ZeroRun.Sound {} [] := ⟨Or.inl rfl, Or.inl rfl, Nat.le_refl 1⟩
  exact (zeroLoop_sound (p := p) (k := 8) hp rfl hstart).close

theorem strlen_eq : inet6AddrStrlen = 45 := by decide

-- The forms of the text: all groups, a run of zeros, and a dotted tail behind nothing but zeros or behind ffff
inductive TextOf (p : Bytes) : Bytes → Prop where
  | whole (hzero : (zeroRun p).zero = none) : TextOf p (joined p)
  | run {A B : Bytes} {max : Nat} (hp : p = A ++ List.replicate (2 * max) 0 ++ B) (hA : A.length % 2 = 0) (hmax : 2 ≤ max)
      (hdot : ¬((zeroRun p).zero = some 0 ∧ dottedTail (zeroRun p) p)) :
      TextOf p ((if A = [] then [58] else []) ++ groups A ++ 58 :: joined B)
  | dotted {p0 p1 p2 p3 : UInt8} (hp : p = List.replicate 12 0 ++ [p0, p1, p2, p3]) :
      TextOf p (58 :: 58 :: quadText p0 p1 p2 p3)
  | mapped {p0 p1 p2 p3 : UInt8} (hp : p = List.replicate 10 0 ++ [0xff, 0xff, p0, p1, p2, p3]) :
      TextOf p (58 :: 58 :: (hexText 0xff 0xff ++ 58 :: quadText p0 p1 p2 p3))

section

variable {text len : Nat} (htext : text + inet6AddrStrlen < 2 ^ 64) (hlen : inet6AddrStrlen ≤ len)
include htext hlen

theorem inet6Ntop_whole {p : Bytes} (hp : p.length = 16) (hzero : (zeroRun p).zero = none) :
    inet6Ntop p text len = some (joined p) := by
  have hnone : ∀ j, (zeroRun p).zero ≠ some j := by
    intro j
    rw [hzero]
    exact (Option.some_ne_none j).symm
  have hgo := groupLoop_joined (n := 16) (k := 8) (m := 0) htext p.length [] hp rfl (Nat.le_refl 16) (fun j _ => hnone (2 * j)) (Nat.zero_le _) (by omega)
  have hdst : (if (zeroRun p).zero = some 0 then [(58 : UInt8)] else []) = [] := if_neg (hnone 0)
  have hn : (if (zeroRun p).zero = some 0 ∧ dottedTail (zeroRun p) p then 12 else 16) = 16 := if_neg fun h => hnone 0 h.1
  rw [inet6Ntop, if_neg (by omega)]
  dsimp only
  rw [hn, hdst, hgo]
  rfl

theorem inet6Ntop_run {p A B : Bytes} (hp : p.length = 16) (hzero : (zeroRun p).zero = some A.length) (hA : A.length % 2 = 0)
    (hmax : 2 ≤ (zeroRun p).max) (hsplit : p = A ++ List.replicate (2 * (zeroRun p).max) 0 ++ B)
    (hdot : ¬((zeroRun p).zero = some 0 ∧ dottedTail (zeroRun p) p)) :
    inet6Ntop p text len = some ((if A = [] then [58] else []) ++ groups A ++ 58 :: joined B) := by
  have hstrlen := strlen_eq
  obtain ⟨k, hk⟩ : ∃ k, A.length = 2 * k := ⟨A.length / 2, by omega⟩
  have hall := congrArg List.length hsplit
  rw [List.length_append, List.length_append, List.length_replicate, hp, hk] at hall
  have hrun : ∀ j, j ≠ k → (zeroRun p).zero ≠ some (2 * j) := by
    intro j hj heq
    rw [hzero, hk] at heq
    have hsame := Option.some.inj heq
    omega
  have hempty : (zeroRun p).zero = some 0 ↔ A = [] := by rw [hzero, Option.some.injEq, List.length_eq_zero_iff]
  generalize hstart : (if A = [] then [(58 : UInt8)] else []) = start
  have hstartlen : start.length ≤ 1 := by
    rw [← hstart]
    split <;> decide
  have hgroups := groups_length hk
  have hfirst := groupLoop_groups (n := 16) (m := 0) htext 16
    (List.replicate (2 * (zeroRun p).max) 0 ++ B) start hk (by omega) (by omega) (fun j _ hj => hrun j (by omega)) (by omega) (by omega)
  have hcolon := groupLoop_zero (n := 16) (i := 2 * (0 + k)) text (zeroRun p) (16 - k) B
    (start ++ groups A) (by omega) (by rw [hzero, hk, Nat.zero_add]) (by omega) (by omega)
  have hindex : 2 * (0 + k) + 2 * (zeroRun p).max = 2 * (k + (zeroRun p).max) := by omega
  have hlast := groupLoop_joined (n := 16) (B := B) (k := 8 - k - (zeroRun p).max) (m := k + (zeroRun p).max)
    htext (16 - k - 1) (start ++ groups A ++ [58]) (by omega) (by omega) (Nat.le_refl 16)
    (fun j hj => hrun j (by omega)) (by simp only [List.length_append, List.length_cons, List.length_nil]; omega) (by omega)
  have hdst : (if (zeroRun p).zero = some 0 then [(58 : UInt8)] else []) = start := by simp only [hempty, hstart]
  have hn : (if (zeroRun p).zero = some 0 ∧ dottedTail (zeroRun p) p then 12 else 16) = 16 := if_neg hdot
  have hloop : groupLoop text (zeroRun p) 16 p.length 0 p start = some (start ++ groups A ++ [58] ++ joined B) := by
    rw [hindex, hlast] at hcolon
    rw [hcolon, ← List.append_assoc, ← hsplit] at hfirst
    rw [hp]
    exact hfirst
  rw [inet6Ntop, if_neg (by omega)]
  dsimp only
  rw [hn, hdst, hloop]
  simp

theorem inet6Ntop_dotted {p : Bytes} (hp : p.length = 16) (hzero : (zeroRun p).zero = some 0)
    (hsplit : ∃ B, p = List.replicate (2 * (zeroRun p).max) 0 ++ B) (hdot : dottedTail (zeroRun p) p = true) :
    ∃ t, TextOf p t ∧ inet6Ntop p text len = some t := by
  have hstrlen := strlen_eq
  obtain ⟨B, hB⟩ := hsplit
  have hn : (if (zeroRun p).zero = some 0 ∧ dottedTail (zeroRun p) p then 12 else 16) = 12 := if_pos ⟨hzero, hdot⟩
  have hloop := groupLoop_zero (n := 12) (i := 0) text (zeroRun p) 16 B [58] (by decide) hzero
  have htail := of_decide_eq_true hdot
  have hntop : inet6Ntop p text len = (groupLoop text (zeroRun p) 12 16 0 p [58]).bind fun dst =>
      (Printf.sprintf (text + dst.length) (ngxString "%ud.%ud.%ud.%ud") [.word (p.getD 12 0).toNat, .word (p.getD 13 0).toNat,
        .word (p.getD 14 0).toNat, .word (p.getD 15 0).toNat]).bind fun quad => some (dst ++ quad) := by
    rw [inet6Ntop, if_neg (by omega)]
    dsimp only
    rw [hn, if_pos hzero, hp]
    rfl
  clear hn hdot
  generalize zeroRun p = run at *
  have hBlen := congrArg List.length hB
  rw [List.length_append, List.length_replicate, hp] at hBlen
  obtain ⟨hmax, h10, h11⟩ | hmax | ⟨hmax, -, -⟩ := htail
  · rw [hmax] at hB hBlen hloop
    obtain ⟨b0, b1, r0, rfl, hr0⟩ := exists_group (p := B) (k := 2) (by omega)
    obtain ⟨p0, p1, r1, rfl, hr1⟩ := exists_group (k := 1) hr0
    obtain ⟨p2, p3, r2, rfl, hr2⟩ := exists_group (k := 0) hr1
    obtain rfl := List.length_eq_zero_iff.mp hr2
    subst hB
    obtain rfl : b0 = 0xff := h10
    obtain rfl : b1 = 0xff := h11
    have hfive : run.zero ≠ some (2 * 5) := by
      rw [hzero]
      decide
    have hgroup := groupLoop_group (n := 12) (m := 5) htext 0xff 0xff [p0, p1, p2, p3] [58, 58] (by decide)
      (by decide) hfive (by decide) (by decide : 1 ≤ 15)
    have hquad := sprintf_quad htext ([58, 58] ++ hexText 0xff 0xff ++ [58]) p0 p1 p2 p3 (by
      have hlen := (hexText_length 0xff 0xff).2
      simp only [List.length_append, List.length_cons, List.length_nil]
      omega)
    have hend : groupLoop text run 12 15 (2 * 5) [0xff, 0xff, p0, p1, p2, p3] [58, 58] =
        some ([58, 58] ++ hexText 0xff 0xff ++ [58]) := by
      rw [hgroup, groupLoop_end (by decide)]
      rfl
    refine ⟨_, .mapped rfl, ?_⟩
    rw [hntop, (hloop (by decide) (by decide)).trans hend, Option.bind_some]
    exact (congrArg (Option.bind · _) hquad).trans (by simp)
  · rw [hmax] at hB hBlen hloop
    obtain ⟨p0, p1, r1, rfl, hr1⟩ := exists_group (p := B) (k := 1) (by omega)
    obtain ⟨p2, p3, r2, rfl, hr2⟩ := exists_group (k := 0) hr1
    obtain rfl := List.length_eq_zero_iff.mp hr2
    subst hB
    refine ⟨_, .dotted rfl, ?_⟩
    rw [hntop, (hloop (by decide) (by decide)).trans (groupLoop_end (by decide) _ _ _), Option.bind_some]
    exact congrArg (Option.bind · _) (sprintf_quad htext [58, 58] p0 p1 p2 p3 (by rw [hstrlen]; decide))
  · rw [hmax] at hB hBlen hloop
    obtain ⟨p2, p3, r2, rfl, hr2⟩ := exists_group (p := B) (k := 0) (by omega)
    obtain rfl := List.length_eq_zero_iff.mp hr2
    subst hB
    refine ⟨58 :: 58 :: quadText 0 0 p2 p3, .dotted rfl, ?_⟩
    rw [hntop, (hloop (by decide) (by decide)).trans (groupLoop_end (by decide) _ _ _), Option.bind_some]
    exact congrArg (Option.bind · _) (sprintf_quad htext [58, 58] 0 0 p2 p3 (by rw [hstrlen]; decide))

theorem inet6Ntop_text {p : Bytes} (hp : p.length = 16) : ∃ t, TextOf p t ∧ inet6Ntop p text len = some t := by
  obtain hnone | ⟨A, B, hzero, hA, hmax, hsplit⟩ := (zeroRun_sound hp).zero_eq
  · exact ⟨_, .whole hnone, inet6Ntop_whole htext hlen hp hnone⟩
  · by_cases hdot : (zeroRun p).zero = some 0 ∧ dottedTail (zeroRun p) p
    · obtain rfl : A = [] := by
        rw [hzero, Option.some.injEq] at hdot
        exact List.length_eq_zero_iff.mp hdot.1
      exact inet6Ntop_dotted htext hlen hp hdot.1 ⟨B, by simpa using hsplit⟩ hdot.2
    · exact ⟨_, .run hsplit hA hmax hdot, inet6Ntop_run htext hlen hp hzero hA hmax hsplit hdot⟩

end

theorem hexDigit_ne {c : UInt8} {d : Nat} (h : Number.hexDigit c = some d) : c ≠ 58 ∧ c ≠ 46 := by
  have hnone : Number.hexDigit 58 = none ∧ Number.hexDigit 46 = none := by decide
  constructor
  · rintro rfl
    rw [hnone.1] at h
    cases h
  · rintro rfl
    rw [hnone.2] at h
    cases h

section

variable {out : Bytes} {zero : Option Nat} {digit : Option Bytes} {n : Nat}

theorem inet6Loop_hex {s : Bytes} (rest : Bytes) {k w v : Nat} (h : numeralFrom 16 w s = some v) (hk : k + s.length ≤ 4) :
    inet6Loop (s ++ rest) ⟨out, zero, digit, n, k, w⟩ = inet6Loop rest ⟨out, zero, digit, n, k + s.length, v⟩ := by
  induction s generalizing k w with
  | nil =>
      obtain rfl : w = v := by simpa [numeralFrom] using h
      rfl
  | cons c s ih =>
      rw [List.length_cons] at hk
      rw [numeralFrom, ← Number.hexDigit_eq, Option.bind_eq_some_iff] at h
      obtain ⟨d, hd, hv⟩ := h
      obtain ⟨hcolon, hdot⟩ := hexDigit_ne hd
      have hnext : k + 1 + s.length = k + (c :: s).length := by
        rw [List.length_cons]
        omega
      rw [List.cons_append, inet6Loop, if_neg hcolon, if_neg fun h => hdot h.1, if_neg (by dsimp only; omega), hd]
      dsimp only
      rw [ih hv (by omega), hnext]

theorem store_group (hi lo : UInt8) : [UInt8.ofNat ((hi.toNat * 256 + lo.toNat) / 256), UInt8.ofNat (hi.toNat * 256 + lo.toNat)] = [hi, lo] := by
  have hlo := lo.toNat_lt
  have hdiv : (hi.toNat * 256 + lo.toNat) / 256 = hi.toNat := by omega
  have hmod : UInt8.ofNat (hi.toNat * 256 + lo.toNat) = lo := by
    apply UInt8.toNat_inj.mp
    rw [UInt8.toNat_ofNat']
    omega
  rw [hdiv, hmod, UInt8.ofNat_toNat]

theorem inet6Loop_group (hi lo : UInt8) (rest : Bytes) (hn : 2 ≤ n) :
    inet6Loop (hexText hi lo ++ 58 :: rest) ⟨out, zero, digit, n, 0, 0⟩ =
      inet6Loop rest ⟨out ++ [hi, lo], zero, some rest, n - 1, 0, 0⟩ := by
  have hlen := hexText_length hi lo
  rw [inet6Loop_hex _ (numeral_hexText hi lo) (by omega), inet6Loop, if_pos rfl, if_pos (by dsimp only; omega),
    if_pos (by dsimp only; omega), Inet6.store, store_group]

theorem inet6Loop_groups {A : Bytes} {k : Nat} (out : Bytes) (zero : Option Nat) (digit : Option Bytes) (rest : Bytes) (hA : A.length = 2 * k)
    (hn : k < n) : ∃ digit', inet6Loop (groups A ++ rest) ⟨out, zero, digit, n, 0, 0⟩ = inet6Loop rest ⟨out ++ A, zero, digit', n - k, 0, 0⟩ := by
  induction k generalizing A out digit n with
  | zero =>
      obtain rfl := List.length_eq_zero_iff.mp hA
      exact ⟨digit, by simp [groups]⟩
  | succ k ih =>
      obtain ⟨hi, lo, A, rfl, hrest⟩ := exists_group hA
      obtain ⟨digit', hgo⟩ := ih (n := n - 1) (out ++ [hi, lo]) (some (groups A ++ rest)) hrest (by omega)
      have hn' : n - 1 - k = n - (k + 1) := by omega
      refine ⟨digit', ?_⟩
      rw [groups, List.append_assoc, List.cons_append, inet6Loop_group hi lo _ (by omega), hgo, hn', List.append_assoc]
      rfl

theorem inet6Loop_joined {B : Bytes} {k : Nat} (out : Bytes) (zero : Option Nat) (digit : Option Bytes)
    (hB : B.length = 2 * (k + 1)) (hn : k < n) :
    ∃ s, inet6Loop (joined B) ⟨out, zero, digit, n, 0, 0⟩ = some s ∧ s.store s.word = out ++ B ∧ s.n = n - k ∧ s.zero = zero ∧
      s.nibbles ≠ 0 := by
  induction k generalizing B out digit n with
  | zero =>
      obtain ⟨hi, lo, B, rfl, hrest⟩ := exists_group hB
      obtain rfl := List.length_eq_zero_iff.mp hrest
      have hlen := hexText_length hi lo
      have hgo : inet6Loop (hexText hi lo ++ []) ⟨out, zero, digit, n, 0, 0⟩ = _ :=
        inet6Loop_hex [] (numeral_hexText hi lo) (by omega)
      rw [List.append_nil] at hgo
      refine ⟨_, hgo, ?_, rfl, rfl, by dsimp only; omega⟩
      rw [Inet6.store, store_group]
  | succ k ih =>
      obtain ⟨hi, lo, B, rfl, hrest⟩ := exists_group hB
      obtain ⟨s, hgo, hstore, hn', hzero, hnib⟩ := ih (n := n - 1) (out ++ [hi, lo]) (some (joined B)) hrest (by omega)
      have hne : B ≠ [] := by
        rintro rfl
        cases hrest
      refine ⟨s, ?_, by rw [hstore, List.append_assoc]; rfl, by omega, hzero, hnib⟩
      rw [joined, inet6Loop_group hi lo _ (by omega), hgo]
      exact hne

end

-- What is stored behind the loop
theorem inet6Addr_eq {text : Bytes} {s : Inet6} (htext : text ≠ [])
    (h : inet6Loop (if text.head? = some 58 then text.tail else text) {} = some s) (hs : s.nibbles ≠ 0 ∨ s.zero ≠ none) :
    inet6Addr text = match s.zero with
      | some start =>
          if s.n - 1 ≠ 0 then
            some ((s.store s.word).take start ++ List.replicate ((s.n - 1) * 2) 0 ++ (s.store s.word).drop start)
          else none
      | none => if s.n - 1 ≠ 0 then none else some (s.store s.word) := by
  have hread : ¬(s.nibbles = 0 ∧ s.zero = none) := by
    rintro ⟨hnib, hzero⟩
    obtain hs | hs := hs
    · exact hs hnib
    · exact hs hzero
  rw [inet6Addr, if_neg htext, h]
  dsimp only
  refine (if_neg hread).trans ?_
  cases s.zero <;> rfl

theorem hexText_head (hi lo : UInt8) (rest : Bytes) : (hexText hi lo ++ rest).head? ≠ some 58 := by
  have hlen := (hexText_length hi lo).1
  have hvalue := numeral_hexText hi lo
  generalize hexText hi lo = t at hlen hvalue ⊢
  cases t with
  | nil => exact absurd hlen (by decide)
  | cons c s =>
      rw [numeralFrom, ← Number.hexDigit_eq, Option.bind_eq_some_iff] at hvalue
      obtain ⟨d, hd, -⟩ := hvalue
      rintro ⟨⟩
      exact (hexDigit_ne hd).1 rfl

theorem joined_head {hi lo : UInt8} (B : Bytes) : (joined (hi :: lo :: B)).head? ≠ some 58 := by
  cases B with
  | nil =>
      rw [joined, ← List.append_nil (hexText hi lo)]
      exact hexText_head hi lo []
  | cons c B =>
      rw [joined]
      · exact hexText_head hi lo _
      · exact List.cons_ne_nil c B

theorem parsed_whole {p : Bytes} (hp : p.length = 16) : inet6Addr (joined p) = some p := by
  obtain ⟨s, hgo, hstore, hn, hzero, hnib⟩ := inet6Loop_joined (n := 8) (k := 7) [] none none hp (by decide)
  have hhead : (joined p).head? ≠ some 58 := by
    obtain ⟨hi, lo, B, rfl, -⟩ := exists_group (k := 7) hp
    exact joined_head B
  have hne : joined p ≠ [] := by
    intro hnil
    rw [hnil, inet6Loop] at hgo
    cases hgo
    exact hnib rfl
  rw [inet6Addr_eq hne (by rw [if_neg hhead]; exact hgo) (Or.inl hnib), hzero]
  dsimp only
  rw [hn, if_neg (by decide), hstore, List.nil_append]

theorem parsed_run {p A B : Bytes} {max : Nat} (hp : p.length = 16) (hsplit : p = A ++ List.replicate (2 * max) 0 ++ B)
    (hA : A.length % 2 = 0) (hmax : 2 ≤ max) :
    inet6Addr ((if A = [] then [58] else []) ++ groups A ++ 58 :: joined B) = some p := by
  generalize htext : (if A = [] then [58] else []) ++ groups A ++ 58 :: joined B = text
  have hne : text ≠ [] := by
    rw [← htext]
    exact List.append_ne_nil_of_right_ne_nil _ (List.cons_ne_nil _ _)
  have hstrip : (if text.head? = some 58 then text.tail else text) = groups A ++ 58 :: joined B := by
    rw [← htext]
    match A with
    | [] => rfl
    | [_] => cases hA
    | hi :: lo :: A =>
        have hhead := hexText_head hi lo (58 :: groups A ++ 58 :: joined B)
        rw [if_neg (List.cons_ne_nil _ _), List.nil_append, groups, List.append_assoc, if_neg hhead]
  have hall := congrArg List.length hsplit
  rw [hp, List.length_append, List.length_append, List.length_replicate] at hall
  obtain ⟨k, hk⟩ : ∃ k, A.length = 2 * k := ⟨A.length / 2, by omega⟩
  obtain ⟨digit, hgroups⟩ := inet6Loop_groups (n := 8) [] none none (58 :: joined B) hk (by omega)
  have hcolon : inet6Loop (58 :: joined B) ⟨[] ++ A, none, digit, 8 - k, 0, 0⟩ =
      inet6Loop (joined B) ⟨A, some A.length, some (joined B), 8 - k, 0, 0⟩ := rfl
  rw [hcolon, ← hstrip] at hgroups
  -- Behind a run at the end, the last two zeros are the ones that are always stored.
  by_cases hB : B = []
  · subst hB
    have hend : inet6Loop (joined []) ⟨A, some A.length, some (joined []), 8 - k, 0, 0⟩ =
        some ⟨A, some A.length, some (joined []), 8 - k, 0, 0⟩ := rfl
    have hzeros : (8 - k - 1) * 2 + 2 = 2 * max := by
      rw [List.length_nil] at hall
      omega
    rw [inet6Addr_eq hne (hgroups.trans hend) (Or.inr (Option.some_ne_none _))]
    dsimp only
    have hstore : (⟨A, some A.length, some (joined []), 8 - k, 0, 0⟩ : Inet6).store 0 = A ++ [0, 0] := rfl
    rw [if_pos (by omega), hstore, List.take_left' rfl, List.drop_left' rfl, List.append_assoc, hsplit, ← hzeros,
      List.replicate_add, List.append_nil]
    rfl
  · have hBpos := List.length_pos_iff.mpr hB
    obtain ⟨j, hj⟩ : ∃ j, B.length = 2 * (j + 1) := ⟨B.length / 2 - 1, by omega⟩
    obtain ⟨s, hgo, hstore, hn, hzero, hnib⟩ := inet6Loop_joined (n := 8 - k) A (some A.length)
      (some (joined B)) hj (by omega)
    have hzeros : (s.n - 1) * 2 = 2 * max := by omega
    rw [inet6Addr_eq hne (hgroups.trans hgo) (Or.inl hnib), hzero]
    dsimp only
    rw [if_pos (by omega), hstore, List.take_left' rfl, List.drop_left' rfl, hzeros, hsplit]

theorem quad_bytes (p0 p1 p2 p3 : UInt8) :
    let word := quad ![p0.toNat, p1.toNat, p2.toNat, p3.toNat]
    [UInt8.ofNat (word / 2 ^ 16 / 256), UInt8.ofNat (word / 2 ^ 16), UInt8.ofNat (word / 256), UInt8.ofNat word] =
      [p0, p1, p2, p3] := by
  have h0 := p0.toNat_lt
  have h1 := p1.toNat_lt
  have h2 := p2.toNat_lt
  have h3 := p3.toNat_lt
  have hword : quad ![p0.toNat, p1.toNat, p2.toNat, p3.toNat] =
      ((p0.toNat * 256 + p1.toNat) * 256 + p2.toNat) * 256 + p3.toNat := rfl
  have hbyte : ∀ (n : Nat) (p : UInt8), n % 256 = p.toNat → UInt8.ofNat n = p := by
    intro n p hn
    apply UInt8.toNat_inj.mp
    rw [UInt8.toNat_ofNat', ← hn]
  dsimp only
  rw [hword, hbyte _ p0 (by omega), hbyte _ p1 (by omega), hbyte _ p2 (by omega), hbyte _ p3 (by omega)]

theorem numeralFrom_hex {s : Bytes} {n v : Nat} (h : numeralFrom 10 n s = some v) (w : Nat) : ∃ x, numeralFrom 16 w s = some x := by
  have hdigit : ∀ c, (digitOf 10 c).isSome → (digitOf 16 c).isSome := by
    intro c hc
    rw [digitOf, List.isSome_idxOf?] at hc ⊢
    exact List.take_subset_take_left _ (by decide) hc
  induction s generalizing n w with
  | nil => exact ⟨w, rfl⟩
  | cons c s ih =>
      rw [numeralFrom, Option.bind_eq_some_iff] at h
      obtain ⟨d, hd, hv⟩ := h
      obtain ⟨x, hx⟩ := Option.isSome_iff_exists.mp (hdigit c (by rw [hd]; rfl))
      rw [numeralFrom, hx]
      exact ih hv _

-- The tail is read from its first number on, whose digits have been taken for those of a group.
theorem inet6Loop_quad (out : Bytes) (zero : Option Nat) {n : Nat} (p0 p1 p2 p3 : UInt8) (hn : 2 ≤ n) :
    ∃ nibbles, nibbles ≠ 0 ∧
      inet6Loop (quadText p0 p1 p2 p3) ⟨out, zero, some (quadText p0 p1 p2 p3), n, 0, 0⟩ =
        if quad ![p0.toNat, p1.toNat, p2.toNat, p3.toNat] = inaddrNone then none
        else some ⟨out ++ [p0, p1], zero, some (quadText p0 p1 p2 p3), n - 1, nibbles,
          quad ![p0.toNat, p1.toNat, p2.toNat, p3.toNat]⟩ := by
  have hsmall : p0.toNat < 2 ^ 64 := Nat.lt_of_lt_of_le p0.toNat_lt (by decide)
  have hlen : (Printf.decimal p0.toNat).length ≤ 3 :=
    decimal_length_le (by decide) (Nat.lt_of_lt_of_le p0.toNat_lt (by decide)) (by decide)
  have hpos := List.length_pos_iff.mpr (Printf.decimal_ne_nil _ hsmall)
  obtain ⟨x, hx⟩ := numeralFrom_hex (numeral_decimal _ hsmall) 0
  refine ⟨(Printf.decimal p0.toNat).length, by omega, ?_⟩
  conv_lhs => rw [quadText]
  rw [inet6Loop_hex _ hx (by omega), Nat.zero_add, inet6Loop, if_neg (by decide), if_pos ⟨rfl, by dsimp only; omega⟩]
  dsimp only
  have haddr := (quadText_dotted p0 p1 p2 p3).addr
  rw [quadText] at haddr
  rw [if_neg (by omega), haddr, Inet6.store]
  have hbytes := quad_bytes p0 p1 p2 p3
  simp only [List.cons.injEq] at hbytes
  rw [hbytes.1, hbytes.2.1, quadText]

theorem inet6Loop_zero {out : Bytes} {digit : Option Bytes} {n w : Nat} (rest : Bytes) :
    inet6Loop (58 :: rest) ⟨out, none, digit, n, 0, w⟩ = inet6Loop rest ⟨out, some out.length, some rest, n, 0, w⟩ := by
  rw [inet6Loop, if_pos rfl, if_neg (not_not.mpr rfl), if_pos rfl]

-- A text that begins with a run of zeros and ends with a dotted tail
theorem parsed_tail {text : Bytes} {n : Nat} (out : Bytes) (p0 p1 p2 p3 : UInt8) (htext : text.head? = some 58) (hn : 3 ≤ n)
    (hstart : inet6Loop text.tail {} =
      inet6Loop (quadText p0 p1 p2 p3) ⟨out, some 0, some (quadText p0 p1 p2 p3), n, 0, 0⟩) :
    inet6Addr text =
      if quad ![p0.toNat, p1.toNat, p2.toNat, p3.toNat] = inaddrNone then none
      else some (List.replicate ((n - 2) * 2) 0 ++ (out ++ [p0, p1, p2, p3])) := by
  obtain ⟨nibbles, hnib, hgo⟩ := inet6Loop_quad (n := n) out (some 0) p0 p1 p2 p3 (by omega)
  have hbytes := quad_bytes p0 p1 p2 p3
  simp only [List.cons.injEq] at hbytes
  generalize quad ![p0.toNat, p1.toNat, p2.toNat, p3.toNat] = word at hgo hbytes ⊢
  have hne : text ≠ [] := by
    rintro rfl
    cases htext
  have hrun := hstart.trans hgo
  split
  next hnone =>
      rw [if_pos hnone] at hrun
      rw [inet6Addr, if_neg hne, if_pos htext, hrun]
  next hsome =>
      rw [if_neg hsome] at hrun
      have hn' : n - 1 - 1 = n - 2 := by omega
      rw [inet6Addr_eq hne (by rw [if_pos htext]; exact hrun) (Or.inl hnib)]
      dsimp only
      rw [hn', if_pos (by omega), Inet6.store, hbytes.2.2.1, hbytes.2.2.2.1]
      simp

theorem parsed_dotted (p0 p1 p2 p3 : UInt8) :
    inet6Addr (58 :: 58 :: quadText p0 p1 p2 p3) =
      if quad ![p0.toNat, p1.toNat, p2.toNat, p3.toNat] = inaddrNone then none
      else some (List.replicate 12 0 ++ [p0, p1, p2, p3]) :=
  parsed_tail (n := 8) [] p0 p1 p2 p3 rfl (by decide) (inet6Loop_zero _)

theorem parsed_mapped (p0 p1 p2 p3 : UInt8) :
    inet6Addr (58 :: 58 :: (hexText 0xff 0xff ++ 58 :: quadText p0 p1 p2 p3)) =
      if quad ![p0.toNat, p1.toNat, p2.toNat, p3.toNat] = inaddrNone then none
      else some (List.replicate 10 0 ++ [0xff, 0xff, p0, p1, p2, p3]) :=
  parsed_tail (n := 7) [0xff, 0xff] p0 p1 p2 p3 rfl (by decide)
    ((inet6Loop_zero _).trans (inet6Loop_group 0xff 0xff _ (by decide)))

theorem quad_eq_none_of {p0 p1 p2 p3 : UInt8} :
    quad ![p0.toNat, p1.toNat, p2.toNat, p3.toNat] = inaddrNone ↔ p0 = 0xff ∧ p1 = 0xff ∧ p2 = 0xff ∧ p3 = 0xff := by
  have hbyte : ∀ p : UInt8, p.toNat = 255 ↔ p = 0xff := fun p => UInt8.toNat_inj (b := 0xff)
  rw [quad_eq_none_iff ![p0.toNat, p1.toNat, p2.toNat, p3.toNat] fun
    | 0 => p0.toNat_lt
    | 1 => p1.toNat_lt
    | 2 => p2.toNat_lt
    | 3 => p3.toNat_lt, ← hbyte p0, ← hbyte p1, ← hbyte p2, ← hbyte p3]
  exact ⟨fun h => ⟨h 0, h 1, h 2, h 3⟩, fun ⟨h0, h1, h2, h3⟩ => fun
    | 0 => h0
    | 1 => h1
    | 2 => h2
    | 3 => h3⟩

-- ::255.255.255.255 and ::ffff:255.255.255.255
def broadcasts : List Bytes :=
  [List.replicate 12 0 ++ List.replicate 4 0xff, List.replicate 10 0 ++ List.replicate 6 0xff]

theorem broadcasts_dotted : ∀ p ∈ broadcasts, (zeroRun p).zero = some 0 ∧ dottedTail (zeroRun p) p := by decide

theorem mem_broadcasts {p0 p1 p2 p3 : UInt8} :
    (List.replicate 12 0 ++ [p0, p1, p2, p3] ∈ broadcasts ↔ p0 = 0xff ∧ p1 = 0xff ∧ p2 = 0xff ∧ p3 = 0xff) ∧
      (List.replicate 10 0 ++ [0xff, 0xff, p0, p1, p2, p3] ∈ broadcasts ↔ p0 = 0xff ∧ p1 = 0xff ∧ p2 = 0xff ∧ p3 = 0xff) := by
  simp [broadcasts, List.replicate_succ]

theorem TextOf.parsed {p t : Bytes} (hp : p.length = 16) (h : TextOf p t) : inet6Addr t = some p ↔ p ∉ broadcasts := by
  have hread : ∀ {word : Nat} {a : Bytes}, (if word = inaddrNone then none else some a) = some a ↔ ¬word = inaddrNone := by
    intro word a
    by_cases hword : word = inaddrNone <;> simp [hword]
  cases h with
  | whole hzero =>
      refine iff_of_true (parsed_whole hp) fun hmem => ?_
      rw [(broadcasts_dotted p hmem).1] at hzero
      cases hzero
  | run hsplit hA hmax hdot =>
      exact iff_of_true (parsed_run hp hsplit hA hmax) fun hmem => hdot (broadcasts_dotted p hmem)
  | dotted hsplit =>
      rw [parsed_dotted, hsplit, hread, quad_eq_none_of, mem_broadcasts.1]
  | mapped hsplit =>
      rw [parsed_mapped, hsplit, hread, quad_eq_none_of, mem_broadcasts.2]

theorem TextOf.length_le {p t : Bytes} (hp : p.length = 16) (h : TextOf p t) : t.length ≤ inet6AddrStrlen := by
  rw [strlen_eq]
  cases h with
  | whole =>
      have hlen := joined_length (k := 8) hp
      omega
  | @run A B max hsplit hA hmax =>
      have hall := congrArg List.length hsplit
      rw [hp, List.length_append, List.length_append, List.length_replicate] at hall
      have hgroups := groups_length (p := A) (k := A.length / 2) (by omega)
      have hjoined := joined_length (p := B) (k := B.length / 2) (by omega)
      have hstart : (if A = [] then [(58 : UInt8)] else []).length ≤ 1 := by split <;> decide
      simp only [List.length_append, List.length_cons]
      omega
  | @dotted p0 p1 p2 p3 _ =>
      have hquad := quadText_length p0 p1 p2 p3
      simp only [List.length_cons]
      omega
  | @mapped p0 p1 p2 p3 _ =>
      have hquad := quadText_length p0 p1 p2 p3
      have hhex := (hexText_length 0xff 0xff).2
      simp only [List.length_cons, List.length_append]
      omega

-- The dotted tail 255.255.255.255 is what ngx_inet_addr has for an error.
theorem inet6_round_trip_iff {p : Bytes} {text len : Nat} (hp : p.length = 16) (htext : text + inet6AddrStrlen < 2 ^ 64)
    (hlen : inet6AddrStrlen ≤ len) :
    ∃ t, inet6Ntop p text len = some t ∧ t.length ≤ inet6AddrStrlen ∧ (inet6Addr t = some p ↔ p ∉ broadcasts) := by
  obtain ⟨t, ht, hntop⟩ := inet6Ntop_text htext hlen hp
  exact ⟨t, hntop, ht.length_le hp, ht.parsed hp⟩

theorem inet6_round_trip_iff_loopback :
    ∃ t, inet6Ntop (List.replicate 15 0 ++ [1]) 0x1000 45 = some t ∧ t.length ≤ inet6AddrStrlen ∧
      (inet6Addr t = some (List.replicate 15 0 ++ [1]) ↔ List.replicate 15 0 ++ [1] ∉ broadcasts) :=
  inet6_round_trip_iff (by decide) (by rw [strlen_eq]; decide) (by rw [strlen_eq])

theorem broadcast_lost : ∃ t, inet6Ntop (List.replicate 10 0 ++ List.replicate 6 0xff) 0x1000 45 = some t ∧ inet6Addr t = none := by
  refine ⟨ngxString "::ffff:255.255.255.255", ?_, ?_⟩
  · decide
  · decide

end Nginx.Inet
