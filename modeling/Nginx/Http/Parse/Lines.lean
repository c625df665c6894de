import Nginx.Core.Printf
import Nginx.Http.Parse.Pieces

namespace Nginx.HttpParse

open Resumable (contents pieces)
open Printf (digitsValue)

theorem slice_contents {last : Nat} (first : Nat) (bytes : Bytes) (h : last ≤ bytes.length) :
    slice (contents bytes) first last = (bytes.drop first).take (last - first) := by
  apply List.ext_getElem
  · rw [slice_length, List.length_take, List.length_drop]
    omega
  · intro i hi hi'
    rw [slice_length] at hi
    have hin : first + i < bytes.length := by omega
    simp [slice, contents, List.getD_eq_getElem?_getD, List.getElem?_eq_getElem hin]

section StatusLines

-- Decimal digits
def Digits (ds : Bytes) : Prop := ∀ c ∈ ds, isDigitChar c = true

-- No end of a line
def NoBreak (text : Bytes) : Prop := ∀ c ∈ text, c ≠ 13 ∧ c ≠ 10

-- HTTP/ and two decimal numbers
def Version (version : Bytes) : Prop :=
  ∃ major minor, version = ngxString "HTTP/" ++ (major ++ 46 :: minor) ∧
    major ≠ [] ∧ Digits major ∧ minor ≠ [] ∧ Digits minor

-- The state in which a caller of ngx_http_parse_status_line begins
def newStatus : Status := ⟨.start, 0, 0, none, none⟩

-- The spaces and digits of sw_status, with what has been counted of them
structure Counted (gap : Bytes) (count code : Nat) : Prop where
  bytes : ∀ c ∈ gap, c = 32 ∨ isDigitChar c = true
  count : count = gap.countP isDigitChar
  code : code = digitsValue 0 (gap.filter isDigitChar)

-- What has been read when the third digit has been: first is the position of the line.
structure Coded (first : Nat) (version gap : Bytes) (code : Nat) (start : Option Nat) : Prop
    extends Counted gap 3 code where
  isVersion : Version version
  last : ∃ front d, gap = front ++ [d] ∧ isDigitChar d = true
  start : start = some (first + (version.length + 1 + gap.length) - 3)

def Blank (r : Status) : Prop := r.code = 0 ∧ r.count = 0

-- What each state says about the part of the line that has been read.
def StatusStage (first : Nat) (line : Bytes) (r : Status) : Prop :=
  match r.state with
  | .start => Blank r ∧ line = []
  | .httpH => Blank r ∧ line = ngxString "H"
  | .httpHT => Blank r ∧ line = ngxString "HT"
  | .httpHTT => Blank r ∧ line = ngxString "HTT"
  | .httpHTTP => Blank r ∧ line = ngxString "HTTP"
  | .firstMajorDigit => Blank r ∧ line = ngxString "HTTP/"
  | .majorDigit => Blank r ∧ ∃ major, line = ngxString "HTTP/" ++ major ∧ major ≠ [] ∧ Digits major
  | .firstMinorDigit => Blank r ∧ ∃ major, line = ngxString "HTTP/" ++ (major ++ [46]) ∧ major ≠ [] ∧ Digits major
  | .minorDigit => Blank r ∧ Version line
  | .status => ∃ version gap, line = version ++ 32 :: gap ∧ Version version ∧ Counted gap r.count r.code ∧
      r.count < 3
  | .spaceAfterStatus => ∃ version gap, line = version ++ 32 :: gap ∧ Coded first version gap r.code r.statusStart
  | .statusText => ∃ version gap text, line = version ++ 32 :: (gap ++ text) ∧
      Coded first version gap r.code r.statusStart ∧ NoBreak text
  | .almostDone => ∃ version gap text, line = version ++ 32 :: (gap ++ (text ++ [13])) ∧
      Coded first version gap r.code r.statusStart ∧ NoBreak text

def StatusInv (buf : Nat → UInt8) (first p : Nat) (r : Status) : Prop :=
  first ≤ p ∧ r.statusEnd = none ∧ StatusStage first (slice buf first p) r

-- The whole line with its end
structure StatusLine (first : Nat) (line : Bytes) (r : Status) (statusEnd : Nat) : Prop where
  parts : ∃ version gap text brk, line = version ++ 32 :: (gap ++ (text ++ brk)) ∧
    Coded first version gap r.code r.statusStart ∧ NoBreak text ∧
    (brk = [10] ∨ brk = [13, 10]) ∧ statusEnd = first + (version.length + 1 + gap.length + text.length)

def StatusPost (buf : Nat → UInt8) (first last p : Nat) : StatusStop → Prop
  | .done r => first ≤ p ∧ p < last ∧ StatusLine first (slice buf first (p + 1)) r (r.statusEnd.getD p)
  | .fail _ => True

variable {buf : Nat → UInt8} {first last p : Nat} {r : Status}

theorem counted_space {gap : Bytes} {count code : Nat} (h : Counted gap count code) :
    Counted (gap ++ [32]) count code where
  bytes := by
    intro c hc
    obtain hc | hc := List.mem_append.mp hc
    · exact h.bytes c hc
    · exact .inl (List.mem_singleton.mp hc)
  count := by
    rw [List.countP_append, h.count]
    rfl
  code := by
    have hspace : [32].filter isDigitChar = [] := rfl
    rw [List.filter_append, hspace, List.append_nil, h.code]

theorem digit_range {d : UInt8} : isDigitChar d = true ↔ 48 ≤ d.toNat ∧ d.toNat ≤ 57 := by
  simp [isDigitChar, UInt8.le_iff_toNat_le]

theorem digitsValue_append (start : Nat) (ds : Bytes) (d : UInt8) :
    digitsValue start (ds ++ [d]) = 10 * digitsValue start ds + (d.toNat - 48) := by
  rw [digitsValue, List.foldl_append]
  rfl

theorem digitsValue_lt (ds : Bytes) (hds : Digits ds) : digitsValue 0 ds < 10 ^ ds.length := by
  induction ds using List.reverseRecOn with
  | nil => exact Nat.one_pos
  | append_singleton ds d ih =>
      have hlt := ih fun c hc => hds c (List.mem_append_left _ hc)
      have hd := digit_range.mp (hds d (List.mem_append_right _ (List.mem_singleton_self d)))
      rw [digitsValue_append, List.length_append, List.length_singleton, Nat.pow_succ]
      omega

theorem counted_digit {gap : Bytes} {d : UInt8} {count code : Nat} (hd : isDigitChar d = true)
    (h : Counted gap count code) (hlt : count < 3) :
    toSize (count + 1) = count + 1 ∧
      Counted (gap ++ [d]) (count + 1) (toSize (code * 10 + d.toNat - 48)) := by
  have hrange := digit_range.mp hd
  have hcode : code < 10 ^ 3 := by
    have hvalue := digitsValue_lt (gap.filter isDigitChar) fun c hc => (List.mem_filter.mp hc).2
    rw [← List.countP_eq_length_filter, ← h.count, ← h.code] at hvalue
    exact hvalue.trans_le (Nat.pow_le_pow_right (by decide) (by omega))
  have hone : [d].filter isDigitChar = [d] := List.filter_cons_of_pos hd
  refine ⟨?_, ?_, ?_, ?_⟩
  · unfold toSize
    omega
  · intro c hc
    obtain hc | hc := List.mem_append.mp hc
    · exact h.bytes c hc
    · exact .inr (List.mem_singleton.mp hc ▸ hd)
  · rw [List.countP_append, ← h.count, List.countP_singleton, if_pos hd]
  · rw [List.filter_append, hone, digitsValue_append, ← h.code]
    unfold toSize
    omega

theorem next_meets (hp : first ≤ p) (hend : r.statusEnd = none)
    (h : StatusStage first (slice buf first p ++ [buf p]) r) :
    (Resumable.Turn.next r).Meets (StatusInv buf first (p + 1)) (StatusPost buf first last p) := by
  refine ⟨Nat.le_succ_of_le hp, hend, ?_⟩
  rw [slice_succ hp]
  exact h

theorem expect_meets {want : UInt8} {state : StatusLineState} (hp : first ≤ p) (hend : r.statusEnd = none)
    (h : buf p = want → StatusStage first (slice buf first p ++ [buf p]) { r with state := state }) :
    (r.expect (buf p) want state).Meets (StatusInv buf first (p + 1)) (StatusPost buf first last p) := by
  unfold Status.expect
  split
  · rename_i heq
    exact next_meets hp hend (h heq)
  · trivial

theorem digits_append {ds : Bytes} {d : UInt8} (hds : Digits ds) (hd : isDigitChar d = true) : Digits (ds ++ [d]) := by
  intro c hc
  obtain hc | hc := List.mem_append.mp hc
  · exact hds c hc
  · exact List.mem_singleton.mp hc ▸ hd

theorem noBreak_append {text : Bytes} {ch : UInt8} (h : NoBreak text) (h13 : ch ≠ 13) (h10 : ch ≠ 10) :
    NoBreak (text ++ [ch]) := by
  intro c hc
  obtain hc | hc := List.mem_append.mp hc
  · exact h c hc
  · exact List.mem_singleton.mp hc ▸ ⟨h13, h10⟩

-- The states of the text before the status code
theorem versionTurn_meets (hp : first ≤ p) (hend : r.statusEnd = none) (hblank : Blank r)
    (hstate : r.state = .firstMajorDigit ∧ slice buf first p = ngxString "HTTP/" ∨
      r.state = .majorDigit ∧ (∃ major, slice buf first p = ngxString "HTTP/" ++ major ∧ major ≠ [] ∧ Digits major) ∨
      r.state = .firstMinorDigit ∧
        (∃ major, slice buf first p = ngxString "HTTP/" ++ (major ++ [46]) ∧ major ≠ [] ∧ Digits major) ∨
      r.state = .minorDigit ∧ Version (slice buf first p)) :
    (statusTurn buf p r).Meets (StatusInv buf first (p + 1)) (StatusPost buf first last p) := by
  obtain ⟨hstate, hline⟩ | ⟨hstate, major, hline, hne, hmajor⟩ | ⟨hstate, major, hline, hne, hmajor⟩ |
    ⟨hstate, hversion⟩ := hstate
  · simp only [statusTurn, hstate]
    split
    · trivial
    · rename_i hrange
      refine next_meets hp hend ?_
      rw [hline]
      refine ⟨hblank, [buf p], rfl, List.cons_ne_nil _ _, ?_⟩
      simp only [not_or, UInt8.not_lt, UInt8.le_iff_toNat_le] at hrange
      have hlow : 48 ≤ (buf p).toNat := Nat.le_of_succ_le hrange.1
      exact List.forall_mem_singleton.mpr (digit_range.mpr ⟨hlow, hrange.2⟩)
  · simp only [statusTurn, hstate]
    split
    · rename_i hdot
      refine next_meets hp hend ?_
      rw [hline, hdot, List.append_assoc]
      exact ⟨hblank, major, rfl, hne, hmajor⟩
    · split
      · trivial
      · rename_i hdigit
        refine next_meets hp hend ?_
        rw [hline, List.append_assoc]
        simp only [StatusStage, hstate]
        exact ⟨hblank, major ++ [buf p], rfl, by simp, digits_append hmajor (by simpa using hdigit)⟩
  · simp only [statusTurn, hstate]
    split
    · trivial
    · rename_i hdigit
      refine next_meets hp hend ?_
      rw [hline, List.append_assoc, List.append_assoc]
      refine ⟨hblank, major, [buf p], rfl, hne, hmajor, List.cons_ne_nil _ _, ?_⟩
      exact List.forall_mem_singleton.mpr (by simpa using hdigit)
  · simp only [statusTurn, hstate]
    split
    · rename_i hspace
      refine next_meets hp hend ?_
      rw [hspace]
      refine ⟨_, [], rfl, hversion, ⟨List.forall_mem_nil _, hblank.2, hblank.1⟩, ?_⟩
      show r.count < 3
      rw [hblank.2]
      decide
    · split
      · trivial
      · rename_i hdigit
        refine next_meets hp hend ?_
        simp only [StatusStage, hstate]
        obtain ⟨major, minor, hline, hne, hmajor, hne', hminor⟩ := hversion
        rw [hline]
        refine ⟨hblank, major, minor ++ [buf p], ?_, hne, hmajor, by simp, digits_append hminor (by simpa using hdigit)⟩
        simp only [List.append_assoc, List.cons_append]

-- The end of the line at a newline that follows no carriage return
theorem done_meets (hp : first ≤ p) (hlt : p < last) (hend : r.statusEnd = none) {version gap text : Bytes}
    (hline : slice buf first p = version ++ 32 :: (gap ++ text))
    (hcoded : Coded first version gap r.code r.statusStart) (htext : NoBreak text) (hlf : buf p = 10) :
    StatusPost buf first last p (.done r) := by
  refine ⟨hp, hlt, version, gap, text, [10], ?_, hcoded, htext, .inl rfl, ?_⟩
  · rw [slice_succ hp, hline, hlf]
    simp only [List.append_assoc, List.cons_append]
  · have hlength := congrArg List.length hline
    rw [slice_length] at hlength
    simp only [List.length_append, List.length_cons] at hlength
    rw [hend, Option.getD_none]
    omega

theorem statusTurn_meets (hlt : p < last) (h : StatusInv buf first p r) :
    (statusTurn buf p r).Meets (StatusInv buf first (p + 1)) (StatusPost buf first last p) := by
  obtain ⟨hp, hend, hstage⟩ := h
  have hsize : (slice buf first p).length = p - first := slice_length buf first p
  cases hstate : r.state with
  | start | httpH | httpHT | httpHTT | httpHTTP =>
      simp only [StatusStage, hstate] at hstage
      simp only [statusTurn, hstate]
      exact expect_meets hp hend fun hch => ⟨hstage.1, by rw [hstage.2, hch]; rfl⟩
  | firstMajorDigit =>
      simp only [StatusStage, hstate] at hstage
      exact versionTurn_meets hp hend hstage.1 (.inl ⟨hstate, hstage.2⟩)
  | majorDigit =>
      simp only [StatusStage, hstate] at hstage
      exact versionTurn_meets hp hend hstage.1 (.inr (.inl ⟨hstate, hstage.2⟩))
  | firstMinorDigit =>
      simp only [StatusStage, hstate] at hstage
      exact versionTurn_meets hp hend hstage.1 (.inr (.inr (.inl ⟨hstate, hstage.2⟩)))
  | minorDigit =>
      simp only [StatusStage, hstate] at hstage
      exact versionTurn_meets hp hend hstage.1 (.inr (.inr (.inr ⟨hstate, hstage.2⟩)))
  | status =>
      simp only [StatusStage, hstate] at hstage
      obtain ⟨version, gap, hline, hversion, hcounted, hcount⟩ := hstage
      have happend : ∀ c, slice buf first p ++ [c] = version ++ 32 :: (gap ++ [c]) := by
        intro c
        rw [hline, List.append_assoc, List.cons_append]
      simp only [statusTurn, hstate]
      split
      · rename_i hspace
        refine next_meets hp hend ?_
        rw [hspace, happend]
        simp only [StatusStage, hstate]
        exact ⟨version, _, rfl, hversion, counted_space hcounted, hcount⟩
      · split
        · trivial
        · rename_i hdigit
          have hd : isDigitChar (buf p) = true := by simpa using hdigit
          obtain ⟨hcount', hcounted'⟩ := counted_digit hd hcounted hcount
          simp only [hcount']
          split
          · rename_i hthree
            rw [hthree] at hcounted'
            refine next_meets hp hend ?_
            rw [happend]
            refine ⟨version, _, rfl, hcounted', hversion, ⟨gap, _, rfl, hd⟩, ?_⟩
            rw [hline] at hsize
            simp only [List.length_append, List.length_cons, List.length_nil] at hsize ⊢
            congr 1
            omega
          · refine next_meets hp hend ?_
            rw [happend]
            simp only [StatusStage]
            exact ⟨version, _, rfl, hversion, hcounted', by omega⟩
  | spaceAfterStatus =>
      simp only [StatusStage, hstate] at hstage
      obtain ⟨version, gap, hline, hcoded⟩ := hstage
      have hnil : NoBreak [] := List.forall_mem_nil _
      simp only [statusTurn, hstate]
      split
      · rename_i hch
        refine next_meets hp hend ?_
        rw [hline, List.append_assoc, List.cons_append]
        have hbreak : buf p ≠ 13 ∧ buf p ≠ 10 := by
          obtain hch | hch := hch <;> rw [hch] <;> decide
        exact ⟨version, gap, [buf p], rfl, hcoded, List.forall_mem_singleton.mpr hbreak⟩
      · split
        · rename_i hcr
          refine next_meets hp hend ?_
          rw [hline, hcr, List.append_assoc, List.cons_append]
          exact ⟨version, gap, [], rfl, hcoded, hnil⟩
        · split
          · rename_i hlf
            rw [← List.append_nil gap] at hline
            exact done_meets hp hlt hend hline hcoded hnil hlf
          · trivial
  | statusText =>
      simp only [StatusStage, hstate] at hstage
      obtain ⟨version, gap, text, hline, hcoded, htext⟩ := hstage
      simp only [statusTurn, hstate]
      split
      · rename_i hcr
        refine next_meets hp hend ?_
        rw [hline, hcr, List.append_assoc, List.cons_append, List.append_assoc]
        exact ⟨version, gap, text, rfl, hcoded, htext⟩
      · split
        · rename_i hlf
          exact done_meets hp hlt hend hline hcoded htext hlf
        · rename_i hcr hlf
          refine next_meets hp hend ?_
          rw [hline, List.append_assoc, List.cons_append, List.append_assoc]
          simp only [StatusStage, hstate]
          exact ⟨version, gap, text ++ [buf p], rfl, hcoded, noBreak_append htext hcr hlf⟩
  | almostDone =>
      simp only [StatusStage, hstate] at hstage
      obtain ⟨version, gap, text, hline, hcoded, htext⟩ := hstage
      simp only [statusTurn, hstate]
      split
      · rename_i hlf
        refine ⟨hp, hlt, version, gap, text, [13, 10], ?_, hcoded, htext, .inr rfl, ?_⟩
        · rw [slice_succ hp, hline, hlf]
          simp only [List.append_assoc, List.cons_append, List.nil_append]
        · have hlength := congrArg List.length hline
          rw [slice_length] at hlength
          simp only [List.length_append, List.length_cons, List.length_nil] at hlength
          show p - 1 = _
          omega
      · trivial

-- What a caller may rely on: first is the position of the line, pos the position behind it.
structure StatusRead (buf : Nat → UInt8) (first pos : Nat) (r : Status) : Prop where
  version : ∃ version rest, slice buf first pos = version ++ 32 :: rest ∧ Version version
  code : ∃ start, r.statusStart = some start ∧ Digits (slice buf start (start + 3)) ∧
    digitsValue 0 (slice buf start (start + 3)) = r.code
  text : ∃ start stop, r.statusStart = some start ∧ r.statusEnd = some stop ∧ start ≤ stop ∧
    NoBreak (slice buf start stop) ∧ (slice buf stop pos = [10] ∨ slice buf stop pos = [13, 10])

-- The three bytes behind the spaces that follow the version are digits.
def codeTogether (stream : Bytes) : Bool :=
  (((stream.dropWhile (· ≠ 32)).dropWhile (· = 32)).take 3).all isDigitChar

-- As many digits as elements of a part are all that the whole has, so there is no digit outside of it.
theorem digits_outside {front back : Bytes} (hthree : (front ++ back).countP isDigitChar = 3) :
    (front.length = 3 → Digits front → ∀ c ∈ back, ¬isDigitChar c = true) ∧
      (back.length = 3 → Digits back → ∀ c ∈ front, ¬isDigitChar c = true) := by
  rw [List.countP_append] at hthree
  constructor
  · intro hlength hdigits
    have hall := List.countP_eq_length.mpr hdigits
    exact List.countP_eq_zero.mp (by omega)
  · intro hlength hdigits
    have hall := List.countP_eq_length.mpr hdigits
    exact List.countP_eq_zero.mp (by omega)

-- Three digits with spaces, a digit at both ends: the last three bytes are digits when the first three are.
theorem three_digits_iff {gap front back : Bytes} {c d : UInt8} (hthree : gap.countP isDigitChar = 3)
    (hfirst : gap = c :: back) (hc : isDigitChar c = true) (hlast : gap = front ++ [d]) (hd : isDigitChar d = true) :
    Digits (gap.drop (gap.length - 3)) ↔ Digits (gap.take 3) := by
  have hsize : 3 ≤ gap.length := hthree ▸ List.countP_le_length
  obtain hgap | hgap := Nat.eq_or_lt_of_le hsize
  · rw [← hgap, Nat.sub_self, List.drop_zero, hgap, List.take_length]
  · constructor
    · intro hdigits
      have hsplit := List.take_append_drop (gap.length - 3) gap
      have hnone := (digits_outside (hsplit.symm ▸ hthree)).2 (by rw [List.length_drop]; omega) hdigits
      obtain ⟨n, hn⟩ : ∃ n, gap.length - 3 = n + 1 := ⟨gap.length - 4, by omega⟩
      rw [hn, hfirst, List.take_succ_cons] at hnone
      exact absurd hc (hnone c List.mem_cons_self)
    · intro hdigits
      have hsplit := List.take_append_drop 3 gap
      have hnone := (digits_outside (hsplit.symm ▸ hthree)).1 (by rw [List.length_take]; omega) hdigits
      have hmem : d ∈ gap.drop 3 := by
        have hlength := congrArg List.length hlast
        rw [List.length_append, List.length_singleton] at hlength
        rw [hlast, List.drop_append_of_le_length (by omega)]
        exact List.mem_append_right _ (List.mem_singleton_self d)
      exact absurd hd (hnone d hmem)

theorem version_no_space {version : Bytes} (h : Version version) : ∀ c ∈ version, c ≠ 32 := by
  have hdigit : ∀ ds, Digits ds → ∀ c ∈ ds, c ≠ 32 := by
    rintro ds hds c hc rfl
    exact absurd (hds 32 hc) (by decide)
  have hname : 32 ∉ ngxString "HTTP/" := by decide
  obtain ⟨major, minor, rfl, -, hmajor, -, hminor⟩ := h
  simp only [List.mem_append, List.mem_cons]
  rintro c (hc | hc | rfl | hc)
  · exact fun heq => hname (heq ▸ hc)
  · exact hdigit major hmajor c hc
  · decide
  · exact hdigit minor hminor c hc

theorem dropWhile_run {p : UInt8 → Bool} {front back : Bytes} {c : UInt8} (hfront : ∀ a ∈ front, p a = true)
    (hc : p c = false) : (front ++ c :: back).dropWhile p = c :: back := by
  rw [List.dropWhile_append_of_pos hfront, List.dropWhile_cons_of_neg (by simp [hc])]

-- The spaces before the first digit
theorem first_digit {gap front : Bytes} {d : UInt8} (hbytes : ∀ c ∈ gap, c = 32 ∨ isDigitChar c = true)
    (hlast : gap = front ++ [d]) (hd : isDigitChar d = true) :
    ∃ spaces c back, gap = spaces ++ c :: back ∧ (∀ a ∈ spaces, a = 32) ∧ isDigitChar c = true := by
  induction gap generalizing front with
  | nil => simp at hlast
  | cons a gap ih =>
      obtain ha | ha := hbytes a List.mem_cons_self
      · cases front with
        | nil =>
            obtain ⟨rfl, -⟩ := List.cons.inj hlast
            rw [ha] at hd
            exact absurd hd (by decide)
        | cons b front =>
            obtain ⟨spaces, c, back, hgap, hspaces, hc⟩ :=
              ih (fun c hc => hbytes c (List.mem_cons_of_mem _ hc)) (List.cons.inj hlast).2
            exact ⟨a :: spaces, c, back, by rw [hgap]; rfl, List.forall_mem_cons.mpr ⟨ha, hspaces⟩, hc⟩
      · exact ⟨[], a, gap, rfl, List.forall_mem_nil _, ha⟩

theorem codeTogether_iff {version gap : Bytes} {code : Nat} {start : Option Nat} (tail : Bytes)
    (h : Coded first version gap code start) :
    codeTogether (version ++ 32 :: (gap ++ tail)) = true ↔ Digits (gap.drop (gap.length - 3)) := by
  obtain ⟨front, d, hlast, hd⟩ := h.last
  obtain ⟨spaces, c, back, hgap, hspaces, hc⟩ := first_digit h.bytes hlast hd
  have hnone : spaces.countP isDigitChar = 0 := by
    apply List.countP_eq_zero.mpr
    intro a ha
    rw [hspaces a ha]
    decide
  have hthree : (c :: back).countP isDigitChar = 3 := by
    have hcount := h.count
    rw [hgap, List.countP_append, hnone, Nat.zero_add] at hcount
    exact hcount.symm
  have hsize : 3 ≤ (c :: back).length := hthree ▸ List.countP_le_length
  obtain ⟨front', hback⟩ : ∃ front', c :: back = front' ++ [d] := by
    obtain hnil | ⟨front', b, hback⟩ := List.eq_nil_or_concat (c :: back)
    · exact absurd hnil (List.cons_ne_nil _ _)
    · rw [List.concat_eq_append] at hback
      rw [hgap, hback, ← List.append_assoc] at hlast
      obtain ⟨-, hsame⟩ := List.append_inj' hlast rfl
      exact ⟨front', hsame ▸ hback⟩
  have hdrop : gap.drop (gap.length - 3) = (c :: back).drop ((c :: back).length - 3) := by
    have hlength : gap.length - 3 = spaces.length + ((c :: back).length - 3) := by
      rw [hgap, List.length_append]
      omega
    rw [hlength, ← List.drop_drop, hgap, List.drop_left]
  have hdigit : ¬c = 32 := by
    rintro rfl
    exact absurd hc (by decide)
  have hrun : ((32 :: spaces) ++ c :: (back ++ tail)).dropWhile (· = 32) = c :: (back ++ tail) :=
    dropWhile_run (by simpa using hspaces) (by simpa using hdigit)
  have htogether : codeTogether (version ++ 32 :: (gap ++ tail)) = ((c :: back).take 3).all isDigitChar := by
    rw [codeTogether, dropWhile_run (fun a ha => by simpa using version_no_space h.isVersion a ha) (by decide), hgap,
      List.append_assoc, List.cons_append, ← List.cons_append, hrun, ← List.cons_append,
      List.take_append_of_le_length hsize]
  rw [htogether, List.all_eq_true, hdrop, three_digits_iff hthree rfl hc hback hd]
  rfl

-- The pointers into a line that has been read to its end
theorem StatusLine.pointers {line : Bytes} {stop : Nat} (h : StatusLine first line r stop)
    (hline : line = slice buf first last) :
    ∃ version gap text brk start, line = version ++ 32 :: (gap ++ (text ++ brk)) ∧
      Coded first version gap r.code r.statusStart ∧ NoBreak text ∧ (brk = [10] ∨ brk = [13, 10]) ∧
      r.statusStart = some start ∧ start ≤ stop ∧ slice buf start (start + 3) = gap.drop (gap.length - 3) ∧
      slice buf start stop = gap.drop (gap.length - 3) ++ text ∧ slice buf stop last = brk := by
  obtain ⟨version, gap, text, brk, hparts, hcoded, htext, hbrk, hstop⟩ := h.parts
  have hthree : 3 ≤ gap.length := hcoded.count ▸ List.countP_le_length
  have hsplit := List.take_append_drop (gap.length - 3) gap
  have htake : (gap.take (gap.length - 3)).length = gap.length - 3 := by
    rw [List.length_take]
    omega
  have hdrop : (gap.drop (gap.length - 3)).length = 3 := by
    rw [List.length_drop]
    omega
  have hstart := hcoded.start
  -- The line with a cut before the last three bytes of the gap
  have hcut : slice buf first last =
      (version ++ 32 :: gap.take (gap.length - 3)) ++ (gap.drop (gap.length - 3) ++ (text ++ brk)) := by
    rw [← hline, hparts, List.append_assoc, List.cons_append, ← List.append_assoc (gap.take _), hsplit]
  have hfront : first + (version ++ 32 :: gap.take (gap.length - 3)).length =
      first + (version.length + 1 + gap.length) - 3 := by
    rw [List.length_append, List.length_cons, htake]
    omega
  refine ⟨version, gap, text, brk, _, hparts, hcoded, htext, hbrk, hstart, by omega, ?_, ?_, ?_⟩
  · have hpart := slice_part hcut
    rwa [hfront, hdrop] at hpart
  · rw [← List.append_assoc (gap.drop _)] at hcut
    have hpart := slice_part hcut
    rw [hfront, List.length_append, hdrop] at hpart
    have hend : first + (version.length + 1 + gap.length) - 3 + (3 + text.length) = stop := by omega
    rwa [hend] at hpart
  · have hwhole : slice buf first last = (version ++ 32 :: (gap ++ text)) ++ (brk ++ []) := by
      rw [← hline, hparts, List.append_nil]
      simp only [List.append_assoc, List.cons_append]
    have hpart := slice_part hwhole
    have hbegin : first + (version ++ 32 :: (gap ++ text)).length = stop := by
      simp only [List.length_append, List.length_cons]
      omega
    have hlength := congrArg List.length hwhole
    rw [slice_length, List.append_nil, List.length_append] at hlength
    have hend : stop + brk.length = last := by
      have : 0 < brk.length := by obtain rfl | rfl := hbrk <;> decide
      omega
    rwa [hbegin, hend] at hpart

theorem parseStatusLine_reads_iff (as : Bytes) (ps : List Bytes) (pos : Nat) (r : Status)
    (h : pieces parseStatusLine .again as as.length newStatus ps = (.ok, pos, r)) :
    StatusRead (contents (as ++ ps.flatten)) as.length pos r ↔ codeTogether ps.flatten = true := by
  obtain ⟨p, stop, pos', found, hpost, hanswer⟩ := Resumable.pieces_keeps statusTurn_local statusAnswer_again ps as
    newStatus (StatusInv (contents (as ++ ps.flatten)) as.length)
    (StatusPost (contents (as ++ ps.flatten)) as.length (as ++ ps.flatten).length)
    (fun q s hq hinv => statusTurn_meets hq hinv) ⟨Nat.le_refl _, rfl, ⟨rfl, rfl⟩, slice_self _ _⟩ h
    StatusRc.noConfusion
  cases stop with
  | fail r' => exact absurd (congrArg (·.1) hanswer) StatusRc.noConfusion
  | done r' =>
      obtain ⟨rfl, rfl⟩ := Prod.mk.inj (Prod.mk.inj hanswer).2
      obtain ⟨hp, hlt, hline⟩ := hpost
      obtain ⟨version, gap, text, brk, start, hparts, hcoded, htext, hbrk, hstart, hle, hcode, htextSlice, hbrkSlice⟩ :=
        hline.pointers rfl
      have hstream : ps.flatten = version ++ 32 :: (gap ++ (text ++ brk ++ ps.flatten.drop (p + 1 - as.length))) := by
        have hslice := slice_contents as.length (as ++ ps.flatten) hlt
        rw [List.drop_left] at hslice
        have hsplit := List.take_append_drop (p + 1 - as.length) ps.flatten
        rw [← hslice, hparts] at hsplit
        simpa only [List.append_assoc, List.cons_append] using hsplit.symm
      rw [hstream, codeTogether_iff _ hcoded, ← hstream]
      constructor
      · intro hread
        obtain ⟨start', hstart', hdigits, -⟩ := hread.code
        obtain rfl := Option.some.inj (hstart.symm.trans hstart')
        rwa [hcode] at hdigits
      · intro hdigits
        refine ⟨⟨version, _, hparts, hcoded.isVersion⟩, ⟨start, hstart, hcode.symm ▸ hdigits, ?_⟩,
          ⟨start, _, hstart, rfl, hle, ?_, ?_⟩⟩
        · rw [hcode, hcoded.code]
          have hsplit := List.take_append_drop (gap.length - 3) gap
          have hthree : 3 ≤ gap.length := hcoded.count ▸ List.countP_le_length
          have houtside := (digits_outside (hsplit.symm ▸ hcoded.count.symm)).2
            (by rw [List.length_drop]; omega) hdigits
          rw [← hsplit, List.filter_append, List.filter_eq_nil_iff.mpr houtside,
            List.filter_eq_self.mpr hdigits, List.nil_append, hsplit]
        · rw [htextSlice]
          intro c hc
          obtain hc | hc := List.mem_append.mp hc
          · obtain rfl | hdigit := hcoded.bytes c (List.mem_of_mem_drop hc)
            · decide
            · constructor <;> (rintro rfl; exact absurd hdigit (by decide))
          · exact htext c hc
        · rw [hbrkSlice]
          exact hbrk

theorem parseStatusLine_reads_iff_short :
    let line := ngxString "HTTP/1.0 200\n"
    let r : Status := ⟨.start, 200, 3, some 9, some 12⟩
    pieces parseStatusLine .again [] 0 newStatus [line] = (.ok, 13, r) ∧
      (StatusRead (contents ([] ++ [line].flatten)) 0 13 r ↔ codeTogether [line].flatten = true) := by
  intro line r
  have hparse : pieces parseStatusLine .again [] 0 newStatus [line] = (.ok, 13, r) := by decide +kernel
  exact ⟨hparse, parseStatusLine_reads_iff [] [line] 13 r hparse⟩

-- The digits of the code are counted across a space, and status->start is two bytes before the last.
theorem split_code_misread :
    let line := ngxString "HTTP/1.1 2 00 OK\n"
    let r : Status := ⟨.start, 200, 3, some 10, some 16⟩
    pieces parseStatusLine .again [] 0 newStatus [line] = (.ok, 17, r) ∧
      slice (contents line) 10 13 = ngxString " 00" ∧ ¬StatusRead (contents line) 0 17 r := by
  intro line r
  have hparse : pieces parseStatusLine .again [] 0 newStatus [line] = (.ok, 17, r) := by decide +kernel
  have hslice : slice (contents line) 10 13 = ngxString " 00" := by decide
  refine ⟨hparse, hslice, ?_⟩
  intro hread
  obtain ⟨start, hstart, hdigits, -⟩ := hread.code
  obtain rfl := Option.some.inj hstart
  have hspace : isDigitChar 32 = true := hdigits 32 (by rw [hslice]; decide)
  exact absurd hspace (by decide)

end StatusLines

section HeaderLines

variable (allowUnderscores : Bool)

-- The bytes of a header name
def isNameChar (c : UInt8) : Bool :=
  (65 ≤ c && c ≤ 90) || (97 ≤ c && c ≤ 122) || (48 ≤ c && c ≤ 57) || c = 45 || (allowUnderscores && c = 95)

-- A name that has been read, with r->header_hash, r->lowcase_index and r->lowcase_header
structure Named (name : Bytes) (hash index : Nat) (lowcase : Bytes) : Prop where
  chars : ∀ c ∈ name, isNameChar allowUnderscores c = true
  hash : hash = Hash.hashKeyLc name
  index : index = name.length % lcHeaderLen
  lowcase : name.length ≤ lcHeaderLen → lowcase.take name.length = name.map tolower

-- A value without a space at its ends
structure Trimmed (value : Bytes) : Prop where
  plain : ∀ c ∈ value, c ≠ 0 ∧ c ≠ 13 ∧ c ≠ 10
  first : value.head? ≠ some 32
  last : value.getLast? ≠ some 32

def NameRead (buf : Nat → UInt8) (r : HeaderRequest) : Prop :=
  ∃ nameStart nameEnd, r.headerNameStart = some nameStart ∧ r.headerNameEnd = some nameEnd ∧ nameStart < nameEnd ∧
    Named allowUnderscores (slice buf nameStart nameEnd) r.headerHash r.lowcaseIndex r.lowcaseHeader

def ValueRead (buf : Nat → UInt8) (r : HeaderRequest) : Prop :=
  ∃ start stop, r.headerStart = some start ∧ r.headerEnd = some stop ∧ start ≤ stop ∧ Trimmed (slice buf start stop)

-- What each state says about a line without an invalid name.
def HeaderStage (buf : Nat → UInt8) (p : Nat) (r : HeaderRequest) : Prop :=
  match r.state with
  | .start | .ignoreLine | .headerAlmostDone => True
  | .name => ∃ nameStart, r.headerNameStart = some nameStart ∧ nameStart < p ∧
      Named allowUnderscores (slice buf nameStart p) r.headerHash r.lowcaseIndex r.lowcaseHeader
  | .spaceBeforeValue => NameRead allowUnderscores buf r
  | .value => NameRead allowUnderscores buf r ∧
      ∃ start, r.headerStart = some start ∧ start < p ∧ Trimmed (slice buf start p)
  | .spaceAfterValue => NameRead allowUnderscores buf r ∧
      ∃ start stop n, r.headerStart = some start ∧ r.headerEnd = some stop ∧ start < stop ∧ stop ≤ p ∧
        Trimmed (slice buf start stop) ∧ slice buf start p = slice buf start stop ++ List.replicate n 32
  | .almostDone => NameRead allowUnderscores buf r ∧ ValueRead buf r

def HeaderInv (buf : Nat → UInt8) (p : Nat) (r : HeaderRequest) : Prop :=
  r.lowcaseHeader.length = lcHeaderLen ∧ (r.invalidHeader = false → HeaderStage allowUnderscores buf p r)

def HeaderPost (buf : Nat → UInt8) : HeaderStop → Prop
  | .done r => r.invalidHeader = false → NameRead allowUnderscores buf r ∧ ValueRead buf r
  | .headerDone _ => True
  | .fail _ => True

variable {allowUnderscores : Bool} {buf : Nat → UInt8} {p : Nat} {r : HeaderRequest}

theorem lowcase_spec (allowUnderscores : Bool) {c : UInt8} (h : lowcase c ≠ 0) :
    isNameChar allowUnderscores c = true ∧ lowcase c = tolower c := by
  unfold lowcase at h ⊢
  split at h
  · rename_i hupper
    simp [isNameChar, tolower, hupper]
  · split at h
    · rename_i hupper hchar
      refine ⟨?_, by rw [if_neg hupper, if_pos hchar, tolower, if_neg hupper]⟩
      obtain hlower | hdigit | hdash := hchar
      · simp [isNameChar, hlower]
      · simp [isNameChar, hdigit]
      · simp [isNameChar, hdash]
    · exact absurd rfl h

theorem named_nil (lower : Bytes) : Named allowUnderscores [] 0 0 lower :=
  ⟨List.forall_mem_nil _, rfl, rfl, fun _ => rfl⟩

theorem named_append {name lower : Bytes} {hash index : Nat} {ch : UInt8}
    (h : Named allowUnderscores name hash index lower) (hlength : lower.length = lcHeaderLen)
    (hch : isNameChar allowUnderscores ch = true) :
    Named allowUnderscores (name ++ [ch]) (Hash.hash hash (tolower ch)) ((index + 1) &&& (lcHeaderLen - 1))
      (lower.set index (tolower ch)) where
  chars := by
    intro c hc
    obtain hc | hc := List.mem_append.mp hc
    · exact h.chars c hc
    · exact List.mem_singleton.mp hc ▸ hch
  hash := by
    rw [h.hash, Hash.hashKeyLc, Hash.hashKeyLc, List.foldl_append]
    rfl
  index := by
    have hmask : lcHeaderLen - 1 = 2 ^ 5 - 1 := rfl
    have hsize : lcHeaderLen = 2 ^ 5 := rfl
    rw [h.index, hmask, Nat.and_two_pow_sub_one_eq_mod, hsize, List.length_append, List.length_singleton]
    omega
  lowcase := by
    intro hle
    rw [List.length_append, List.length_singleton] at hle ⊢
    have hindex : index = name.length := h.index.trans (Nat.mod_eq_of_lt hle)
    have hin : name.length < (lower.set name.length (tolower ch)).length := by
      rw [List.length_set, hlength]
      exact hle
    rw [hindex, List.take_succ_eq_append_getElem hin, List.getElem_set_self, List.take_set_of_le (Nat.le_refl _),
      h.lowcase (Nat.le_of_succ_le hle), List.map_append]
    rfl

theorem trimmed_nil : Trimmed [] := ⟨List.forall_mem_nil _, by simp, by simp⟩

theorem trimmed_append {value : Bytes} {ch : UInt8} (hplain : ∀ c ∈ value, c ≠ 0 ∧ c ≠ 13 ∧ c ≠ 10)
    (hfirst : value.head? ≠ some 32) (h0 : ch ≠ 0) (h13 : ch ≠ 13) (h10 : ch ≠ 10) (h32 : ch ≠ 32) :
    Trimmed (value ++ [ch]) where
  plain := by
    intro c hc
    obtain hc | hc := List.mem_append.mp hc
    · exact hplain c hc
    · exact List.mem_singleton.mp hc ▸ ⟨h0, h13, h10⟩
  first := by
    cases value with
    | nil => simpa using h32
    | cons c value => exact hfirst
  last := by
    rw [List.getLast?_append_of_ne_nil _ (List.cons_ne_nil _ _)]
    simpa using h32

theorem nameEnd_read {nameStart : Nat} (hstart : r.headerNameStart = some nameStart) (hlt : nameStart < p)
    (hnamed : Named allowUnderscores (slice buf nameStart p) r.headerHash r.lowcaseIndex r.lowcaseHeader) :
    NameRead allowUnderscores buf { r with headerNameEnd := some p } :=
  ⟨nameStart, p, hstart, rfl, hlt, hnamed⟩

theorem noValue_read : ValueRead buf (r.noValue p) := by
  refine ⟨p, p, rfl, rfl, Nat.le_refl p, ?_⟩
  rw [slice_self]
  exact trimmed_nil

theorem startTurn_meets (hlength : r.lowcaseHeader.length = lcHeaderLen) (hstate : r.state = .start) :
    (headerTurn allowUnderscores buf p r).Meets (HeaderInv allowUnderscores buf (p + 1))
      (HeaderPost allowUnderscores buf) := by
  simp only [headerTurn, hstate]
  split
  · exact ⟨hlength, fun _ => trivial⟩
  · split
    · trivial
    · split
      · rename_i hch
        obtain ⟨hchar, hlower⟩ := lowcase_spec allowUnderscores hch
        refine ⟨(List.length_set).trans hlength, fun _ => ⟨p, rfl, Nat.lt_succ_self p, ?_⟩⟩
        rw [slice_succ (Nat.le_refl p), slice_self, hlower]
        exact named_append (named_nil _) hlength hchar
      · split
        · trivial
        · exact ⟨hlength, fun hvalid => absurd hvalid Bool.noConfusion⟩

theorem addName_meets (hlength : r.lowcaseHeader.length = lcHeaderLen) (hstate : r.state = .name)
    (hstage : r.invalidHeader = false → HeaderStage allowUnderscores buf p r) {c : UInt8}
    (hchar : isNameChar allowUnderscores (buf p) = true) (hlower : c = tolower (buf p)) :
    HeaderInv allowUnderscores buf (p + 1) (r.addName c) := by
  refine ⟨(List.length_set).trans hlength, fun hvalid => ?_⟩
  have hname := hstage hvalid
  simp only [HeaderStage, hstate] at hname
  obtain ⟨nameStart, hstart, hlt, hnamed⟩ := hname
  have hstate' : (r.addName c).state = .name := hstate
  simp only [HeaderStage, hstate']
  refine ⟨nameStart, hstart, Nat.lt_succ_of_lt hlt, ?_⟩
  rw [slice_succ (Nat.le_of_lt hlt), hlower]
  exact named_append hnamed hlength hchar

theorem nameTurn_meets (hlength : r.lowcaseHeader.length = lcHeaderLen) (hstate : r.state = .name)
    (hstage : r.invalidHeader = false → HeaderStage allowUnderscores buf p r) :
    (headerTurn allowUnderscores buf p r).Meets (HeaderInv allowUnderscores buf (p + 1))
      (HeaderPost allowUnderscores buf) := by
  have hread : r.invalidHeader = false → NameRead allowUnderscores buf { r with headerNameEnd := some p } := by
    intro hvalid
    have hname := hstage hvalid
    simp only [HeaderStage, hstate] at hname
    obtain ⟨nameStart, hstart, hlt, hnamed⟩ := hname
    exact nameEnd_read hstart hlt hnamed
  have hinvalid : HeaderInv allowUnderscores buf (p + 1) { r with invalidHeader := true } :=
    ⟨hlength, fun hvalid => absurd hvalid Bool.noConfusion⟩
  simp only [headerTurn, hstate]
  split
  · rename_i hch
    obtain ⟨hchar, hlower⟩ := lowcase_spec allowUnderscores hch
    exact addName_meets hlength hstate hstage hchar hlower
  · split
    · rename_i hunderscore
      split
      · rename_i hallow
        refine addName_meets hlength hstate hstage ?_ ?_
        · simp [isNameChar, hunderscore, hallow]
        · rw [hunderscore]
          decide
      · exact hstate ▸ hinvalid
    · split
      · exact ⟨hlength, hread⟩
      · split
        · exact ⟨hlength, fun hvalid => ⟨hread hvalid, noValue_read (r := r)⟩⟩
        · split
          · exact fun hvalid => ⟨hread hvalid, noValue_read (r := r)⟩
          · split
            · exact ⟨hlength, fun _ => trivial⟩
            · split
              · trivial
              · exact hstate ▸ hinvalid

theorem valueTurn_meets (hlength : r.lowcaseHeader.length = lcHeaderLen)
    (hstate : r.state = .spaceBeforeValue ∨ r.state = .value ∨ r.state = .spaceAfterValue)
    (hstage : r.invalidHeader = false → HeaderStage allowUnderscores buf p r) :
    (headerTurn allowUnderscores buf p r).Meets (HeaderInv allowUnderscores buf (p + 1))
      (HeaderPost allowUnderscores buf) := by
  obtain hstate | hstate | hstate := hstate
  · simp only [HeaderStage, hstate] at hstage
    simp only [headerTurn, hstate]
    split
    · exact ⟨hlength, fun hvalid => by simpa only [HeaderStage, hstate] using hstage hvalid⟩
    · split
      · exact ⟨hlength, fun hvalid => ⟨hstage hvalid, noValue_read (r := r)⟩⟩
      · split
        · exact fun hvalid => ⟨hstage hvalid, noValue_read (r := r)⟩
        · split
          · trivial
          · rename_i h32 h13 h10 h0
            refine ⟨hlength, fun hvalid => ⟨hstage hvalid, p, rfl, Nat.lt_succ_self p, ?_⟩⟩
            rw [slice_succ (Nat.le_refl p), slice_self]
            exact trimmed_append (List.forall_mem_nil _) (by simp) h0 h13 h10 h32
  · simp only [HeaderStage, hstate] at hstage
    have hend : r.invalidHeader = false → ValueRead buf { r with headerEnd := some p } := by
      intro hvalid
      obtain ⟨-, start, hstart, hlt, hvalue⟩ := hstage hvalid
      exact ⟨start, p, hstart, rfl, Nat.le_of_lt hlt, hvalue⟩
    simp only [headerTurn, hstate]
    split
    · rename_i h32
      refine ⟨hlength, fun hvalid => ?_⟩
      obtain ⟨hname, start, hstart, hlt, hvalue⟩ := hstage hvalid
      refine ⟨hname, start, p, 1, hstart, rfl, hlt, Nat.le_succ p, hvalue, ?_⟩
      rw [slice_succ (Nat.le_of_lt hlt), h32]
      rfl
    · split
      · exact ⟨hlength, fun hvalid => ⟨(hstage hvalid).1, hend hvalid⟩⟩
      · split
        · exact fun hvalid => ⟨(hstage hvalid).1, hend hvalid⟩
        · split
          · trivial
          · rename_i h32 h13 h10 h0
            refine ⟨hlength, fun hvalid => ?_⟩
            obtain ⟨hname, start, hstart, hlt, hvalue⟩ := hstage hvalid
            simp only [HeaderStage, hstate]
            refine ⟨hname, start, hstart, Nat.lt_succ_of_lt hlt, ?_⟩
            rw [slice_succ (Nat.le_of_lt hlt)]
            exact trimmed_append hvalue.plain hvalue.first h0 h13 h10 h32
  · simp only [HeaderStage, hstate] at hstage
    have hend : r.invalidHeader = false → ValueRead buf r := by
      intro hvalid
      obtain ⟨-, start, stop, n, hstart, hstop, hlt, hle, hvalue, -⟩ := hstage hvalid
      exact ⟨start, stop, hstart, hstop, Nat.le_of_lt hlt, hvalue⟩
    simp only [headerTurn, hstate]
    split
    · rename_i h32
      refine ⟨hlength, fun hvalid => ?_⟩
      obtain ⟨hname, start, stop, n, hstart, hstop, hlt, hle, hvalue, hspaces⟩ := hstage hvalid
      simp only [HeaderStage, hstate]
      refine ⟨hname, start, stop, n + 1, hstart, hstop, hlt, Nat.le_succ_of_le hle, hvalue, ?_⟩
      rw [slice_succ (Nat.le_trans (Nat.le_of_lt hlt) hle), hspaces, h32, List.append_assoc, List.replicate_succ']
    · split
      · exact ⟨hlength, fun hvalid => ⟨(hstage hvalid).1, hend hvalid⟩⟩
      · split
        · exact fun hvalid => ⟨(hstage hvalid).1, hend hvalid⟩
        · split
          · trivial
          · rename_i h32 h13 h10 h0
            refine ⟨hlength, fun hvalid => ?_⟩
            obtain ⟨hname, start, stop, n, hstart, hstop, hlt, hle, hvalue, hspaces⟩ := hstage hvalid
            refine ⟨hname, start, hstart, Nat.lt_succ_of_lt (Nat.lt_of_lt_of_le hlt hle), ?_⟩
            rw [slice_succ (Nat.le_trans (Nat.le_of_lt hlt) hle), hspaces]
            refine trimmed_append ?_ ?_ h0 h13 h10 h32
            · intro c hc
              obtain hc | hc := List.mem_append.mp hc
              · exact hvalue.plain c hc
              · rw [List.eq_of_mem_replicate hc]
                decide
            · have hne : slice buf start stop ≠ [] := by
                apply List.ne_nil_of_length_pos
                rw [slice_length]
                omega
              rw [List.head?_append_of_ne_nil _ hne]
              exact hvalue.first

theorem headerTurn_meets (h : HeaderInv allowUnderscores buf p r) :
    (headerTurn allowUnderscores buf p r).Meets (HeaderInv allowUnderscores buf (p + 1))
      (HeaderPost allowUnderscores buf) := by
  obtain ⟨hlength, hstage⟩ := h
  cases hstate : r.state with
  | start => exact startTurn_meets hlength hstate
  | name => exact nameTurn_meets hlength hstate hstage
  | spaceBeforeValue => exact valueTurn_meets hlength (.inl hstate) hstage
  | value => exact valueTurn_meets hlength (.inr (.inl hstate)) hstage
  | spaceAfterValue => exact valueTurn_meets hlength (.inr (.inr hstate)) hstage
  | ignoreLine =>
      simp only [headerTurn, hstate]
      split
      · exact ⟨hlength, fun _ => trivial⟩
      · exact ⟨hlength, fun _ => by simp only [HeaderStage, hstate]⟩
  | almostDone =>
      simp only [HeaderStage, hstate] at hstage
      simp only [headerTurn, hstate]
      split
      · exact hstage
      · split
        · exact ⟨hlength, fun hvalid => by simpa only [HeaderStage, hstate] using hstage hvalid⟩
        · trivial
  | headerAlmostDone =>
      simp only [headerTurn, hstate]
      split <;> trivial

-- A header line that a caller gets without r->invalid_header. A name of as many bytes as the array has leaves the
-- index at 0, so that the callers do not take the array for it.
theorem parseHeaderLine_reads (as : Bytes) (ps : List Bytes) (pos : Nat) (r r' : HeaderRequest)
    (hstart : r.state = .start) (hlength : r.lowcaseHeader.length = lcHeaderLen)
    (h : pieces (parseHeaderLine allowUnderscores) .again as as.length r ps = (.ok, pos, r'))
    (hvalid : r'.invalidHeader = false) :
    (∃ nameStart nameEnd, r'.headerNameStart = some nameStart ∧ r'.headerNameEnd = some nameEnd ∧
      nameStart < nameEnd ∧
      let name := slice (contents (as ++ ps.flatten)) nameStart nameEnd
      (∀ c ∈ name, isNameChar allowUnderscores c = true) ∧ r'.headerHash = Hash.hashKeyLc name ∧
        (name.length ≤ 32 → r'.lowcaseHeader.take name.length = name.map tolower) ∧
        (name.length < 32 → r'.lowcaseIndex = name.length) ∧ (name.length = 32 → r'.lowcaseIndex = 0)) ∧
    (∃ start stop, r'.headerStart = some start ∧ r'.headerEnd = some stop ∧ start ≤ stop ∧
      let value := slice (contents (as ++ ps.flatten)) start stop
      (∀ c ∈ value, c ≠ 0 ∧ c ≠ 13 ∧ c ≠ 10) ∧ value.head? ≠ some 32 ∧ value.getLast? ≠ some 32) := by
  obtain ⟨p, stop, pos', found, hpost, hanswer⟩ := Resumable.pieces_keeps (headerTurn_local allowUnderscores)
    headerAnswer_again ps as r (HeaderInv allowUnderscores (contents (as ++ ps.flatten)))
    (fun _ => HeaderPost allowUnderscores (contents (as ++ ps.flatten)))
    (fun q s _ hinv => headerTurn_meets hinv) ⟨hlength, fun _ => by simp only [HeaderStage, hstart]⟩ h
    HeaderRc.noConfusion
  cases stop with
  | fail r₁ => exact absurd (congrArg (·.1) hanswer) HeaderRc.noConfusion
  | headerDone r₁ => exact absurd (congrArg (·.1) hanswer) HeaderRc.noConfusion
  | done r₁ =>
      obtain ⟨rfl, rfl⟩ := Prod.mk.inj (Prod.mk.inj hanswer).2
      obtain ⟨hname, hvalue⟩ := hpost hvalid
      obtain ⟨nameStart, nameEnd, hnameStart, hnameEnd, hlt, hnamed⟩ := hname
      obtain ⟨start, stop, hvalueStart, hvalueEnd, hle, htrimmed⟩ := hvalue
      refine ⟨⟨nameStart, nameEnd, hnameStart, hnameEnd, hlt, hnamed.chars, hnamed.hash, hnamed.lowcase, ?_, ?_⟩,
        ⟨start, stop, hvalueStart, hvalueEnd, hle, htrimmed.plain, htrimmed.first, htrimmed.last⟩⟩
      · intro hshort
        exact hnamed.index.trans (Nat.mod_eq_of_lt hshort)
      · intro hfull
        show r₁.lowcaseIndex = 0
        rw [hnamed.index, hfull]
        rfl

def newHeaderRequest : HeaderRequest :=
  ⟨.start, 0, 0, List.replicate 32 0, false, none, none, none, none, false⟩

theorem parseHeaderLine_reads_host :
    let line := ngxString "Host: a b \r\n"
    let r := (pieces (parseHeaderLine false) .again [] 0 newHeaderRequest [line]).2.2
    pieces (parseHeaderLine false) .again [] 0 newHeaderRequest [line] = (.ok, 12, r) ∧
      r.invalidHeader = false ∧ r.headerStart = some 6 ∧ r.headerEnd = some 9 ∧
      slice (contents line) 6 9 = ngxString "a b" ∧ (slice (contents line) 6 9).getLast? ≠ some 32 := by
  intro line r
  have hparse : pieces (parseHeaderLine false) .again [] 0 newHeaderRequest [line] = (.ok, 12, r) := by decide
  have hvalid : r.invalidHeader = false := by decide
  have hstart : r.headerStart = some 6 := by decide
  have hstop : r.headerEnd = some 9 := by decide
  obtain ⟨-, start, stop, hstart', hstop', -, -, -, hlast⟩ :=
    parseHeaderLine_reads [] [line] 12 newHeaderRequest r rfl rfl hparse hvalid
  obtain rfl := Option.some.inj (hstart.symm.trans hstart')
  obtain rfl := Option.some.inj (hstop.symm.trans hstop')
  exact ⟨hparse, hvalid, hstart, hstop, by decide, hlast⟩

-- A name of 32 bytes: no byte of the array is below the index.
theorem full_name_index :
    let name := List.replicate 32 (65 : UInt8)
    let line := name ++ ngxString ": b\n"
    let r := (pieces (parseHeaderLine false) .again [] 0 newHeaderRequest [line]).2.2
    pieces (parseHeaderLine false) .again [] 0 newHeaderRequest [line] = (.ok, 36, r) ∧
      r.invalidHeader = false ∧ r.headerNameStart = some 0 ∧ r.headerNameEnd = some 32 ∧
      slice (contents line) 0 32 = name ∧ r.lowcaseIndex = 0 ∧
      ¬(name.length ≤ 32 → r.lowcaseHeader.take r.lowcaseIndex = name.map tolower) := by
  decide

end HeaderLines

end Nginx.HttpParse
