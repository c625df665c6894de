import Nginx.Mail.Imap

-- What an IMAP command is made of: a tag, a name and arguments, as positions in the text of the command.
namespace Nginx.Imap

variable (byte : Nat → UInt8)

def IsBreak (ch : UInt8) : Prop := ch = 32 ∨ ch = 13 ∨ ch = 10

-- The bytes from a to e belong to one word.
def Solid (a e : Nat) : Prop := a ≤ e ∧ ∀ i, a ≤ i → i < e → ¬ IsBreak (byte i)

def Blank (a e : Nat) : Prop := ∀ i, a ≤ i → i < e → byte i = 32

-- The raw characters of a quoted string: a quote and a backslash stand behind a backslash only.
inductive Raw (a : Nat) : Nat → Prop where
  | nil : Raw a a
  | char {i : Nat} (h : Raw a i) (hquote : byte i ≠ 34) (hslash : byte i ≠ 92) (hcr : byte i ≠ 13)
      (hlf : byte i ≠ 10) : Raw a (i + 1)
  | pair {i : Nat} (h : Raw a i) (hslash : byte i = 92) (hcr : byte (i + 1) ≠ 13) (hlf : byte (i + 1) ≠ 10) :
      Raw a (i + 2)

-- The digits from a on stand for a number.
inductive Number (a : Nat) : Nat → Nat → Prop where
  | nil : Number a a 0
  | digit {i n : Nat} (h : Number a i n) (hdigit : isDigit (byte i) = true) :
      Number a (i + 1) (n * 10 + ((byte i).toNat - 48))

-- '{n}' or '{n+}' at h, and the CRs behind it
inductive LiteralHead (h : Nat) : Nat → Nat → Prop where
  | sync {d n : Nat} (hopen : byte h = 123) (hnumber : Number byte (h + 1) d n) (hclose : byte d = 125) :
      LiteralHead h (d + 1) n
  | noSync {d n : Nat} (hopen : byte h = 123) (hnumber : Number byte (h + 1) d n) (hplus : byte d = 43)
      (hclose : byte (d + 1) = 125) : LiteralHead h (d + 2) n
  | cr {i n : Nat} (head : LiteralHead h i n) (hcr : byte i = 13) : LiteralHead h (i + 1) n

-- A command is a request with a tag, or the reply to the challenge of an AUTHENTICATE, behind the tag that is kept.
inductive Origin where
  | request
  | reply
deriving DecidableEq

-- What has been read last: a space or a string, a literal, the CR at the end of the line, the whole line.
inductive Place where
  | gap
  | literal
  | cr
  | ended
deriving DecidableEq

def behind (ch : UInt8) : Place := if ch = 13 then .cr else if ch = 10 then .ended else .gap

-- The text from start to a position is the beginning of a command with these arguments.
-- The byte behind a literal is a separator, whatever it is, unless it opens the next literal.
inductive Reads (ssl : Bool) (start : Nat) : Origin → Place → Nat → List Arg → Prop where
  | request {t c d : Nat} (htag : Solid byte start t) (htagEnd : byte t = 32) (htc : t < c)
      (hblank : Blank byte (t + 1) c) (hname : Solid byte c d) (hknown : commandName ssl byte c d ≠ none)
      (hbreak : IsBreak (byte d)) : Reads ssl start .request (behind (byte d)) (d + 1) []
  | reply {t e : Nat} (htag : Solid byte start t) (htagEnd : byte t = 32) (hatom : Solid byte (t + 1) e)
      (hbreak : IsBreak (byte e)) :
      Reads ssl start .reply (behind (byte e)) (e + 1) [⟨t + 1, (e : Int) - (t + 1 : Nat)⟩]
  | blank {o : Origin} {i : Nat} {args : List Arg} (h : Reads ssl start o .gap i args) (hbreak : IsBreak (byte i)) :
      Reads ssl start o (behind (byte i)) (i + 1) args
  | separator {o : Origin} {i : Nat} {args : List Arg} (h : Reads ssl start o .literal i args)
      (hopen : byte i ≠ 123) : Reads ssl start o (behind (byte i)) (i + 1) args
  | crlf {o : Origin} {i : Nat} {args : List Arg} (h : Reads ssl start o .cr i args) (hlf : byte i = 10) :
      Reads ssl start o .ended (i + 1) args
  | atom {o : Origin} {a e : Nat} {args : List Arg} (h : Reads ssl start o .gap a args) (hquote : byte a ≠ 34)
      (hopen : byte a ≠ 123) (hsome : a < e) (hatom : Solid byte a e) (hbreak : IsBreak (byte e)) :
      Reads ssl start o (behind (byte e)) (e + 1) (args ++ [⟨a, (e : Int) - a⟩])
  | string {o : Origin} {i e : Nat} {args : List Arg} (h : Reads ssl start o .gap i args) (hopen : byte i = 34)
      (hraw : Raw byte (i + 1) e) (hclose : byte e = 34) :
      Reads ssl start o .gap (e + 1) (args ++ [⟨i + 1, (e : Int) - (i + 1 : Nat)⟩])
  | literal {o : Origin} {pl : Place} {h a n : Nat} {args : List Arg} (hbefore : Reads ssl start o pl h args)
      (hpl : pl = .gap ∨ pl = .literal) (head : LiteralHead byte h a n) (hlf : byte a = 10) (hn : 0 < n) :
      Reads ssl start o .literal (a + 1 + n) (args ++ [⟨a + 1, n⟩])

-- The characters of an atom, the raw characters between quotes, or as many octets as a literal declares
inductive Argument : Arg → Prop where
  | atom {a e : Nat} (hatom : Solid byte a e) (hbreak : IsBreak (byte e)) : Argument ⟨a, (e : Int) - a⟩
  | string {i e : Nat} (hopen : byte i = 34) (hraw : Raw byte (i + 1) e) (hclose : byte e = 34) :
      Argument ⟨i + 1, (e : Int) - (i + 1 : Nat)⟩
  | literal {h a n : Nat} (head : LiteralHead byte h a n) (hlf : byte a = 10) : Argument ⟨a + 1, n⟩

-- A slice of the text between two positions
def Arg.Within (arg : Arg) (first last : Nat) : Prop :=
  0 ≤ arg.len ∧ first ≤ arg.data ∧ arg.data + arg.len ≤ last

variable {byte} {ssl : Bool} {start : Nat} {o : Origin} {pl : Place} {i n : Nat} {args : List Arg}

theorem Raw.le {a : Nat} (h : Raw byte a i) : a ≤ i := by
  induction h with
  | nil => exact Nat.le_refl a
  | char _ _ _ _ _ ih => omega
  | pair _ _ _ _ ih => omega

theorem Number.le {a : Nat} (h : Number byte a i n) : a ≤ i := by
  induction h with
  | nil => exact Nat.le_refl a
  | digit _ _ ih => omega

theorem Number.last_digit {a : Nat} (h : Number byte a i n) :
    n = 0 ∨ ∃ j m, i = j + 1 ∧ n = m * 10 + ((byte j).toNat - 48) := by
  cases h with
  | nil => exact Or.inl rfl
  | digit _ _ => exact Or.inr ⟨_, _, rfl, rfl⟩

theorem LiteralHead.lt {h : Nat} (head : LiteralHead byte h i n) : h < i := by
  induction head with
  | sync _ hnumber _ =>
      have := hnumber.le
      omega
  | noSync _ hnumber _ _ =>
      have := hnumber.le
      omega
  | cr _ _ ih => omega

theorem Reads.start_lt (h : Reads byte ssl start o pl i args) : start < i := by
  induction h with
  | request htag _ htc _ hname _ _ =>
      have := htag.1
      have := hname.1
      omega
  | reply htag _ hatom _ =>
      have := htag.1
      have := hatom.1
      omega
  | blank _ _ ih => omega
  | separator _ _ ih => omega
  | crlf _ _ ih => omega
  | atom _ _ _ hsome _ _ ih => omega
  | string _ _ hraw _ ih =>
      have := hraw.le
      omega
  | literal _ _ head _ _ ih =>
      have := head.lt
      omega

theorem Arg.Within.mono {arg : Arg} {first last last' : Nat} (h : arg.Within first last) (hle : last ≤ last') :
    arg.Within first last' :=
  ⟨h.1, h.2.1, by have := h.2.2; omega⟩

theorem forall_mem_snoc {P : Arg → Prop} {arg : Arg} (h : ∀ x ∈ args, P x) (harg : P arg) :
    ∀ x ∈ args ++ [arg], P x := by
  intro x hx
  rw [List.mem_append, List.mem_singleton] at hx
  obtain hx | rfl := hx
  · exact h x hx
  · exact harg

-- Every argument is a slice of what has been read.
theorem Reads.within (h : Reads byte ssl start o pl i args) : ∀ arg ∈ args, arg.Within start i := by
  induction h with
  | request => exact fun arg harg => (List.not_mem_nil harg).elim
  | reply htag _ hatom _ =>
      intro arg harg
      rw [List.mem_singleton] at harg
      subst harg
      have := htag.1
      have := hatom.1
      exact ⟨by dsimp only; omega, by dsimp only; omega, by dsimp only; omega⟩
  | blank _ _ ih => exact fun arg harg => (ih arg harg).mono (Nat.le_succ _)
  | separator _ _ ih => exact fun arg harg => (ih arg harg).mono (Nat.le_succ _)
  | crlf _ _ ih => exact fun arg harg => (ih arg harg).mono (Nat.le_succ _)
  | atom hbefore _ _ hsome _ _ ih =>
      have := hbefore.start_lt
      apply forall_mem_snoc fun arg harg => (ih arg harg).mono (by omega)
      exact ⟨by dsimp only; omega, by dsimp only; omega, by dsimp only; omega⟩
  | string hbefore _ hraw _ ih =>
      have := hbefore.start_lt
      have := hraw.le
      apply forall_mem_snoc fun arg harg => (ih arg harg).mono (by omega)
      exact ⟨by dsimp only; omega, by dsimp only; omega, by dsimp only; omega⟩
  | literal hbefore _ head _ _ ih =>
      have := hbefore.start_lt
      have := head.lt
      apply forall_mem_snoc fun arg harg => (ih arg harg).mono (by omega)
      exact ⟨by dsimp only; omega, by dsimp only; omega, by dsimp only; omega⟩

theorem Reads.arguments (h : Reads byte ssl start o pl i args) : ∀ arg ∈ args, Argument byte arg := by
  induction h with
  | request => exact fun arg harg => (List.not_mem_nil harg).elim
  | reply _ _ hatom hbreak =>
      intro arg harg
      rw [List.mem_singleton] at harg
      subst harg
      exact .atom hatom hbreak
  | blank _ _ ih => exact ih
  | separator _ _ ih => exact ih
  | crlf _ _ ih => exact ih
  | atom _ _ _ _ hatom hbreak ih => exact forall_mem_snoc ih (.atom hatom hbreak)
  | string _ hopen hraw hclose ih => exact forall_mem_snoc ih (.string hopen hraw hclose)
  | literal _ _ head hlf _ ih => exact forall_mem_snoc ih (.literal head hlf)

section

variable {byte' : Nat → UInt8}

-- The text of a command says what it is: bytes behind it do not count.
def Agrees (byte byte' : Nat → UInt8) (first last : Nat) : Prop := ∀ j, first ≤ j → j < last → byte j = byte' j

theorem Agrees.mono {first last first' last' : Nat} (h : Agrees byte byte' first last) (hf : first ≤ first')
    (hl : last' ≤ last) : Agrees byte byte' first' last' :=
  fun j h1 h2 => h j (Nat.le_trans hf h1) (Nat.lt_of_lt_of_le h2 hl)

theorem Solid.congr {a e : Nat} (h : Solid byte a e) (hagree : Agrees byte byte' a e) : Solid byte' a e :=
  ⟨h.1, fun j h1 h2 => hagree j h1 h2 ▸ h.2 j h1 h2⟩

theorem Blank.congr {a e : Nat} (h : Blank byte a e) (hagree : Agrees byte byte' a e) : Blank byte' a e :=
  fun j h1 h2 => hagree j h1 h2 ▸ h j h1 h2

theorem Raw.congr {a : Nat} (h : Raw byte a i) (hagree : Agrees byte byte' a i) : Raw byte' a i := by
  induction h with
  | nil => exact .nil
  | char hraw hquote hslash hcr hlf ih =>
      have hle := hraw.le
      rw [hagree _ hle (by omega)] at hquote hslash hcr hlf
      exact .char (ih (hagree.mono (Nat.le_refl a) (by omega))) hquote hslash hcr hlf
  | pair hraw hslash hcr hlf ih =>
      have hle := hraw.le
      rw [hagree _ hle (by omega)] at hslash
      rw [hagree _ (by omega) (by omega)] at hcr hlf
      exact .pair (ih (hagree.mono (Nat.le_refl a) (by omega))) hslash hcr hlf

theorem Number.congr {a : Nat} (h : Number byte a i n) (hagree : Agrees byte byte' a i) : Number byte' a i n := by
  induction h with
  | nil => exact .nil
  | digit hnumber hdigit ih =>
      have hle := hnumber.le
      rw [hagree _ hle (by omega)] at hdigit ⊢
      exact .digit (ih (hagree.mono (Nat.le_refl a) (by omega))) hdigit

theorem LiteralHead.congr {h : Nat} (head : LiteralHead byte h i n) (hagree : Agrees byte byte' h i) :
    LiteralHead byte' h i n := by
  induction head with
  | sync hopen hnumber hclose =>
      have hle := hnumber.le
      rw [hagree _ (Nat.le_refl h) (by omega)] at hopen
      rw [hagree _ (by omega) (by omega)] at hclose
      exact .sync hopen (hnumber.congr (hagree.mono (by omega) (by omega))) hclose
  | noSync hopen hnumber hplus hclose =>
      have hle := hnumber.le
      rw [hagree _ (Nat.le_refl h) (by omega)] at hopen
      rw [hagree _ (by omega) (by omega)] at hplus hclose
      exact .noSync hopen (hnumber.congr (hagree.mono (by omega) (by omega))) hplus hclose
  | cr head hcr ih =>
      have := head.lt
      rw [hagree _ (by omega) (by omega)] at hcr
      exact .cr (ih (hagree.mono (Nat.le_refl h) (by omega))) hcr

theorem spells_congr (upper lower : String) {c : Nat} (hagree : Agrees byte byte' c (c + upper.length)) :
    spells upper lower c byte = spells upper lower c byte' := by
  unfold spells
  rw [Bool.eq_iff_iff, List.all_eq_true, List.all_eq_true]
  constructor
  · intro h k hk
    rw [← hagree (c + k) (by omega) (by rw [List.mem_range] at hk; omega)]
    exact h k hk
  · intro h k hk
    rw [hagree (c + k) (by omega) (by rw [List.mem_range] at hk; omega)]
    exact h k hk

theorem commandName_congr {c d : Nat} (hle : c ≤ d) (hagree : Agrees byte byte' c d) :
    commandName ssl byte c d = commandName ssl byte' c d := by
  have hspells (upper lower : String) (h : d - c = upper.length) :
      spells upper lower c byte = spells upper lower c byte' :=
    spells_congr upper lower (hagree.mono (Nat.le_refl c) (by omega))
  unfold commandName
  split
  · rw [hspells "NOOP" "noop" ‹_›]
  · rw [hspells "LOGIN" "login" ‹_›]
  · rw [hspells "LOGOUT" "logout" ‹_›]
  · rw [hspells "STARTTLS" "starttls" ‹_›]
  · rw [hspells "CAPABILITY" "capability" ‹_›]
  · rw [hspells "AUTHENTICATE" "authenticate" ‹_›]
  · rfl

theorem Reads.congr (h : Reads byte ssl start o pl i args) (hagree : Agrees byte byte' start i) :
    Reads byte' ssl start o pl i args := by
  induction h with
  | request htag htagEnd htc hblank hname hknown hbreak =>
      have h1 := htag.1
      have h2 := hname.1
      rw [commandName_congr h2 (hagree.mono (by omega) (by omega))] at hknown
      rw [hagree _ (by omega) (by omega)] at htagEnd hbreak ⊢
      exact .request (htag.congr (hagree.mono (by omega) (by omega))) htagEnd htc
        (hblank.congr (hagree.mono (by omega) (by omega))) (hname.congr (hagree.mono (by omega) (by omega))) hknown hbreak
  | reply htag htagEnd hatom hbreak =>
      have h1 := htag.1
      have h2 := hatom.1
      rw [hagree _ (by omega) (by omega)] at htagEnd hbreak ⊢
      exact .reply (htag.congr (hagree.mono (by omega) (by omega))) htagEnd
        (hatom.congr (hagree.mono (by omega) (by omega))) hbreak
  | blank hbefore hbreak ih =>
      have hlt := hbefore.start_lt
      rw [hagree _ (by omega) (by omega)] at hbreak ⊢
      exact .blank (ih (hagree.mono (Nat.le_refl start) (by omega))) hbreak
  | separator hbefore hopen ih =>
      have hlt := hbefore.start_lt
      rw [hagree _ (by omega) (by omega)] at hopen ⊢
      exact .separator (ih (hagree.mono (Nat.le_refl start) (by omega))) hopen
  | crlf hbefore hlf ih =>
      have hlt := hbefore.start_lt
      rw [hagree _ (by omega) (by omega)] at hlf
      exact .crlf (ih (hagree.mono (Nat.le_refl start) (by omega))) hlf
  | atom hbefore hquote hopen hsome hatom hbreak ih =>
      have hlt := hbefore.start_lt
      rw [hagree _ (by omega) (by omega)] at hquote hopen hbreak ⊢
      exact .atom (ih (hagree.mono (Nat.le_refl start) (by omega))) hquote hopen hsome
        (hatom.congr (hagree.mono (by omega) (by omega))) hbreak
  | string hbefore hopen hraw hclose ih =>
      have hlt := hbefore.start_lt
      have hle := hraw.le
      rw [hagree _ (by omega) (by omega)] at hopen hclose
      exact .string (ih (hagree.mono (Nat.le_refl start) (by omega))) hopen
        (hraw.congr (hagree.mono (by omega) (by omega))) hclose
  | literal hbefore hpl head hlf hn ih =>
      have hlt := hbefore.start_lt
      have hhead := head.lt
      rw [hagree _ (by omega) (by omega)] at hlf
      exact .literal (ih (hagree.mono (Nat.le_refl start) (by omega))) hpl
        (head.congr (hagree.mono (by omega) (by omega))) hlf hn

end

end Nginx.Imap
