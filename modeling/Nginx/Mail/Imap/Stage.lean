import Nginx.Mail.Imap.Grammar

-- What each state of the parser says about the text that has been read.
namespace Nginx.Imap

variable (byte : Nat → UInt8) (ssl : Bool) (base : Nat) (text : Bytes) (o : Origin)

-- A byte in a quoted string is no CR and no LF, and a literal declares from 1 to 2^64 - 1 octets.
def proper (ch : UInt8) (s : Session) : Bool :=
  if s.state = .backslash || s.state = .argument && s.quoted then ch ≠ 13 && ch ≠ 10
  else if s.state = .literal then
    if isDigit ch then s.literalLen * 10 + (ch.toNat - 48) < 2 ^ 64
    else (ch ≠ 125 && ch ≠ 43) || s.literalLen ≠ 0
  else true

def AfterTag (p : Nat) (s : Session) (t : Nat) : Prop :=
  s.tagLen = t + 1 - base ∧ Solid byte base t ∧ byte t = 32 ∧ t < p

def Tagged (p : Nat) (s : Session) : Prop := ∃ t, AfterTag byte base p s t

-- Between two arguments nothing is left of the last one.
def Session.Quiet (s : Session) : Prop :=
  s.argStart = 0 ∧ s.quoted = false ∧ s.noSyncLiteral = false ∧ s.literalLen = 0

def InString (p : Nat) (s : Session) : Prop :=
  ∃ i, s.argStart = i + 1 ∧ Reads byte ssl base o .gap i s.args ∧ byte i = 34 ∧ Raw byte (i + 1) p

def InAtom (p : Nat) (s : Session) : Prop :=
  (Reads byte ssl base o .gap s.argStart s.args ∧ byte s.argStart ≠ 34 ∧ byte s.argStart ≠ 123 ∧ s.argStart < p ∧
    Solid byte s.argStart p) ∨
  (o = .reply ∧ s.args = [] ∧ ∃ t, s.argStart = t + 1 ∧ Solid byte base t ∧ byte t = 32 ∧ Solid byte (t + 1) p)

-- Where a literal may begin.
def BeforeLiteral (h : Nat) (args : List Arg) : Prop :=
  ∃ pl, Reads byte ssl base o pl h args ∧ (pl = .gap ∨ pl = .literal)

def Stage (p : Nat) (s : Session) : Prop :=
  match s.state with
  | .start => o = .request ∧ s.Quiet ∧ s.args = [] ∧ Solid byte base p
  | .spacesBeforeCommand =>
      o = .request ∧ s.Quiet ∧ s.args = [] ∧ ∃ t, AfterTag byte base p s t ∧ Blank byte (t + 1) p
  | .command =>
      o = .request ∧ s.Quiet ∧ s.args = [] ∧
        ∃ t, AfterTag byte base p s t ∧ t < s.cmdStart ∧ Blank byte (t + 1) s.cmdStart ∧ Solid byte s.cmdStart p
  | .spacesBeforeArgument => s.Quiet ∧ Reads byte ssl base o .gap p s.args
  | .argument =>
      s.noSyncLiteral = false ∧ s.literalLen = 0 ∧
        (s.quoted = true ∧ InString byte ssl base o p s ∨ s.quoted = false ∧ InAtom byte ssl base o p s)
  | .backslash =>
      s.noSyncLiteral = false ∧ s.literalLen = 0 ∧ s.quoted = true ∧
        ∃ q, p = q + 1 ∧ InString byte ssl base o q s ∧ byte q = 92
  | .literal =>
      s.argStart = 0 ∧ s.quoted = false ∧ s.noSyncLiteral = false ∧
        ∃ h, BeforeLiteral byte ssl base o h s.args ∧ byte h = 123 ∧ Number byte (h + 1) p s.literalLen
  | .noSyncLiteralArgument =>
      s.argStart = 0 ∧ s.quoted = false ∧ 0 < s.literalLen ∧
        ∃ h q, p = q + 1 ∧ BeforeLiteral byte ssl base o h s.args ∧ byte h = 123 ∧
          Number byte (h + 1) q s.literalLen ∧ byte q = 43
  | .startLiteralArgument =>
      s.argStart = 0 ∧ s.quoted = false ∧ 0 < s.literalLen ∧
        ∃ h, BeforeLiteral byte ssl base o h s.args ∧ LiteralHead byte h p s.literalLen
  | .literalArgument =>
      s.quoted = false ∧ s.noSyncLiteral = false ∧ 0 < s.literalLen ∧
        ∃ h a n, BeforeLiteral byte ssl base o h s.args ∧ LiteralHead byte h a n ∧ byte a = 10 ∧ s.argStart = a + 1 ∧
          0 < n ∧ p + s.literalLen = a + 1 + n ∧ a + 1 ≤ p
  | .endLiteralArgument => s.Quiet ∧ Reads byte ssl base o .literal p s.args
  | .almostDone => s.Quiet ∧ Reads byte ssl base o .cr p s.args

structure Holds (p : Nat) (s : Session) : Prop where
  start_eq : s.start = base
  text_eq : s.text = text
  base_le : base ≤ p
  tagged : s.state ≠ .start → Tagged byte base p s
  stage : Stage byte ssl base o p s

structure Complete (p : Nat) (s : Session) : Prop where
  start_eq : s.start = base
  text_eq : s.text = text
  tagged : Tagged byte base p s
  quiet : s.Quiet
  reads : Reads byte ssl base o .ended p s.args

def Stopped (p : Nat) : Stop → Prop
  | .done s => Complete byte ssl base text o (p + 1) s
  | .invalid s => s.start = base ∧ s.argStart = 0
  | .badLine s => s.start = base ∧ s.Quiet
  | .imapNext s => s.pos = p + 1 ∧ Holds byte ssl base text o (p + 1) s
  | .error _ => True

variable {byte ssl base text o} {grow : Nat → Bool} {p : Nat} {s : Session}

theorem AfterTag.succ {t : Nat} (h : AfterTag byte base p s t) : AfterTag byte base (p + 1) s t :=
  ⟨h.1, h.2.1, h.2.2.1, Nat.lt_succ_of_lt h.2.2.2⟩

theorem Tagged.succ (h : Tagged byte base p s) : Tagged byte base (p + 1) s :=
  h.imp fun _ ht => ht.succ

theorem Solid.snoc {a e : Nat} (h : Solid byte a e) (hbreak : ¬ IsBreak (byte e)) : Solid byte a (e + 1) := by
  refine ⟨Nat.le_succ_of_le h.1, fun i h1 h2 => ?_⟩
  obtain hlt | rfl := Nat.lt_succ_iff_lt_or_eq.mp h2
  · exact h.2 i h1 hlt
  · exact hbreak

theorem Blank.snoc {a e : Nat} (h : Blank byte a e) (hblank : byte e = 32) : Blank byte a (e + 1) := by
  intro i h1 h2
  obtain hlt | rfl := Nat.lt_succ_iff_lt_or_eq.mp h2
  · exact h i h1 hlt
  · exact hblank

theorem Solid.single {e : Nat} (h : ¬ IsBreak (byte e)) : Solid byte e (e + 1) :=
  Solid.snoc ⟨Nat.le_refl e, fun i h1 h2 => by omega⟩ h

-- The switch behind a word: where the text stands depends on the byte alone.
theorem readEnd_meets {ch : UInt8} (hstart : s.start = base) (htext : s.text = text) (hbase : base ≤ p + 1)
    (htagged : Tagged byte base (p + 1) s) (hquiet : s.Quiet)
    (hreads : Reads byte ssl base o (behind ch) (p + 1) s.args) :
    (readEnd ch s).Meets (Holds byte ssl base text o (p + 1)) (Stopped byte ssl base text o p) := by
  rw [readEnd]
  by_cases h13 : ch = 13
  · rw [behind, if_pos h13] at hreads
    rw [if_pos h13]
    exact ⟨hstart, htext, hbase, fun _ => htagged, hquiet, hreads⟩
  · rw [behind, if_neg h13] at hreads
    rw [if_neg h13]
    by_cases h10 : ch = 10
    · rw [if_pos h10] at hreads
      rw [if_pos h10]
      exact ⟨hstart, htext, htagged, hquiet, hreads⟩
    · rw [if_neg h10] at hreads
      rw [if_neg h10]
      exact ⟨hstart, htext, hbase, fun _ => htagged, hquiet, hreads⟩

-- One lemma a state: what its turn keeps.
theorem readTag_meets (hs : s.state = .start) (h : Holds byte ssl base text o p s) :
    (readTag byte p s).Meets (Holds byte ssl base text o (p + 1)) (Stopped byte ssl base text o p) := by
  obtain ⟨hstart, htext, hbase, -, hstage⟩ := h
  simp only [Stage, hs] at hstage
  obtain ⟨ho, hquiet, hargs, hsolid⟩ := hstage
  rw [readTag]
  by_cases h32 : byte p = 32
  · rw [if_pos h32]
    have htag : AfterTag byte base (p + 1)
        { s with tagLen := p - s.start + 1, state := .spacesBeforeCommand } p := by
      refine ⟨?_, hsolid, h32, Nat.lt_succ_self p⟩
      dsimp only
      omega
    exact ⟨hstart, htext, by omega, fun _ => ⟨p, htag⟩, ho, hquiet, hargs, p,
      htag, fun i h1 h2 => by omega⟩
  · rw [if_neg h32]
    split
    · exact ⟨hstart, hquiet⟩
    · rename_i hend
      rw [Bool.or_eq_true, decide_eq_true_eq, decide_eq_true_eq, not_or] at hend
      refine ⟨hstart, htext, by omega, fun hne => absurd hs hne, ?_⟩
      simp only [Stage, hs]
      refine ⟨ho, hquiet, hargs, hsolid.snoc ?_⟩
      rintro (hb | hb | hb)
      · exact h32 hb
      · exact hend.1 hb
      · exact hend.2 hb

theorem readSpaces_meets (hs : s.state = .spacesBeforeCommand) (h : Holds byte ssl base text o p s) :
    (readSpaces byte p s).Meets (Holds byte ssl base text o (p + 1)) (Stopped byte ssl base text o p) := by
  obtain ⟨hstart, htext, hbase, -, hstage⟩ := h
  simp only [Stage, hs] at hstage
  obtain ⟨ho, hquiet, hargs, t, htag, hblank⟩ := hstage
  rw [readSpaces]
  by_cases h32 : byte p = 32
  · rw [if_pos h32]
    refine ⟨hstart, htext, by omega, fun _ => ⟨t, htag.succ⟩, ?_⟩
    simp only [Stage, hs]
    exact ⟨ho, hquiet, hargs, t, htag.succ, hblank.snoc h32⟩
  · rw [if_neg h32]
    split
    · exact ⟨hstart, hquiet⟩
    · rename_i hend
      rw [Bool.or_eq_true, decide_eq_true_eq, decide_eq_true_eq, not_or] at hend
      have hbreak : ¬ IsBreak (byte p) := by
        rintro (hb | hb | hb)
        · exact h32 hb
        · exact hend.1 hb
        · exact hend.2 hb
      exact ⟨hstart, htext, by omega, fun _ => ⟨t, htag.succ⟩, ho, hquiet, hargs, t, htag.succ, htag.2.2.2, hblank,
        Solid.single hbreak⟩

theorem readCommand_meets (hs : s.state = .command) (h : Holds byte ssl base text o p s) :
    (readCommand ssl byte p s).Meets (Holds byte ssl base text o (p + 1)) (Stopped byte ssl base text o p) := by
  obtain ⟨hstart, htext, hbase, -, hstage⟩ := h
  simp only [Stage, hs] at hstage
  obtain ⟨ho, hquiet, hargs, t, htag, hlt, hblank, hname⟩ := hstage
  rw [readCommand]
  by_cases hend : (byte p = 32 || byte p = 13 || byte p = 10) = true
  · rw [if_pos hend]
    have hbreak : IsBreak (byte p) := by
      simpa [IsBreak, or_assoc] using hend
    cases hcommand : commandName ssl byte s.cmdStart p with
    | none => exact ⟨hstart, hquiet.1⟩
    | some command =>
        have hreads : Reads byte ssl base .request (behind (byte p)) (p + 1) [] :=
          .request htag.2.1 htag.2.2.1 hlt hblank hname (by rw [hcommand]; exact Option.some_ne_none _) hbreak
        rw [← hargs, ← ho] at hreads
        have hafter : Tagged byte base (p + 1) { s with command := some command } := ⟨t, htag.succ⟩
        exact readEnd_meets hstart htext (by omega) hafter hquiet hreads
  · rw [if_neg hend]
    split
    · exact ⟨hstart, hquiet.1⟩
    · have hbreak : ¬ IsBreak (byte p) := by
        simpa [IsBreak, or_assoc] using hend
      refine ⟨hstart, htext, by omega, fun _ => ⟨t, htag.succ⟩, ?_⟩
      simp only [Stage, hs]
      exact ⟨ho, hquiet, hargs, t, htag.succ, hlt, hblank, hname.snoc hbreak⟩

theorem readArgumentStart_meets (hs : s.state = .spacesBeforeArgument) (h : Holds byte ssl base text o p s) :
    (readArgumentStart byte p s).Meets (Holds byte ssl base text o (p + 1)) (Stopped byte ssl base text o p) := by
  obtain ⟨hstart, htext, hbase, htagged, hstage⟩ := h
  have htag : Tagged byte base (p + 1) s := (htagged (by rw [hs]; exact State.noConfusion)).succ
  simp only [Stage, hs] at hstage
  obtain ⟨hquiet, hreads⟩ := hstage
  rw [readArgumentStart]
  by_cases h32 : byte p = 32
  · rw [if_pos h32]
    have hnext := hreads.blank (Or.inl h32)
    rw [behind, if_neg (by rw [h32]; decide), if_neg (by rw [h32]; decide)] at hnext
    refine ⟨hstart, htext, by omega, fun _ => htag, ?_⟩
    simp only [Stage, hs]
    exact ⟨hquiet, hnext⟩
  rw [if_neg h32]
  by_cases h13 : byte p = 13
  · rw [if_pos h13]
    have hnext := hreads.blank (Or.inr (Or.inl h13))
    rw [behind, if_pos h13] at hnext
    exact ⟨hstart, htext, by omega, fun _ => htag, hquiet, hnext⟩
  rw [if_neg h13]
  by_cases h10 : byte p = 10
  · rw [if_pos h10]
    have hnext := hreads.blank (Or.inr (Or.inr h10))
    rw [behind, if_neg h13, if_pos h10] at hnext
    exact ⟨hstart, htext, htag, hquiet, hnext⟩
  rw [if_neg h10]
  split
  · by_cases h34 : byte p = 34
    · rw [if_pos h34]
      exact ⟨hstart, htext, by omega, fun _ => htag, hquiet.2.2.1, hquiet.2.2.2,
        Or.inl ⟨rfl, p, rfl, hreads, h34, .nil⟩⟩
    rw [if_neg h34]
    by_cases h123 : byte p = 123
    · rw [if_pos h123]
      have hnumber : Number byte (p + 1) (p + 1) s.literalLen := by
        rw [hquiet.2.2.2]
        exact .nil
      exact ⟨hstart, htext, by omega, fun _ => htag, hquiet.1, hquiet.2.1, hquiet.2.2.1, p,
        ⟨.gap, hreads, Or.inl rfl⟩, h123, hnumber⟩
    · rw [if_neg h123]
      have hbreak : ¬ IsBreak (byte p) := by
        rintro (hb | hb | hb)
        · exact h32 hb
        · exact h13 hb
        · exact h10 hb
      exact ⟨hstart, htext, by omega, fun _ => htag, hquiet.2.2.1, hquiet.2.2.2,
        Or.inr ⟨hquiet.2.1, Or.inl ⟨hreads, h34, h123, Nat.lt_succ_self p, Solid.single hbreak⟩⟩⟩
  · exact ⟨hstart, hquiet.1⟩

theorem InAtom.reads (h : InAtom byte ssl base o p s) (hbreak : IsBreak (byte p)) :
    Reads byte ssl base o (behind (byte p)) (p + 1) (s.args ++ [⟨s.argStart, (p : Int) - s.argStart⟩]) := by
  obtain ⟨hreads, h34, h123, hlt, hsolid⟩ | ⟨rfl, hargs, t, hat, htag, h32, hsolid⟩ := h
  · exact hreads.atom h34 h123 hlt hsolid hbreak
  · rw [hargs, hat]
    exact .reply htag h32 hsolid hbreak

theorem InAtom.succ (h : InAtom byte ssl base o p s) (hbreak : ¬ IsBreak (byte p)) : InAtom byte ssl base o (p + 1) s := by
  obtain ⟨hreads, h34, h123, hlt, hsolid⟩ | ⟨ho, hargs, t, hat, htag, h32, hsolid⟩ := h
  · exact Or.inl ⟨hreads, h34, h123, by omega, hsolid.snoc hbreak⟩
  · exact Or.inr ⟨ho, hargs, t, hat, htag, h32, hsolid.snoc hbreak⟩

theorem InString.reads (h : InString byte ssl base o p s) (hclose : byte p = 34) :
    Reads byte ssl base o .gap (p + 1) (s.args ++ [⟨s.argStart, (p : Int) - s.argStart⟩]) := by
  obtain ⟨i, hi, hreads, hopen, hraw⟩ := h
  rw [hi]
  exact hreads.string hopen hraw hclose

theorem InString.char (h : InString byte ssl base o p s) (h34 : byte p ≠ 34) (h92 : byte p ≠ 92) (h13 : byte p ≠ 13)
    (h10 : byte p ≠ 10) : InString byte ssl base o (p + 1) s := by
  obtain ⟨i, hi, hreads, hopen, hraw⟩ := h
  exact ⟨i, hi, hreads, hopen, hraw.char h34 h92 h13 h10⟩

theorem push_some {data : Nat} {len : Int} {s' : Session} (h : s.push grow data len = some s') :
    s' = { s with args := s.args ++ [⟨data, len⟩] } := by
  rw [Session.push] at h
  split at h
  · exact (Option.some.inj h).symm
  · cases h

theorem readArgument_meets (hs : s.state = .argument) (h : Holds byte ssl base text o p s)
    (hproper : proper (byte p) s = true) :
    (readArgument grow byte p s).Meets (Holds byte ssl base text o (p + 1)) (Stopped byte ssl base text o p) := by
  obtain ⟨hstart, htext, hbase, htagged, hstage⟩ := h
  have htag : Tagged byte base (p + 1) s := (htagged (by rw [hs]; exact State.noConfusion)).succ
  simp only [Stage, hs] at hstage
  obtain ⟨hsync, hlen, ⟨hquoted, hstring⟩ | ⟨hquoted, hatom⟩⟩ := hstage
  · have hline : byte p ≠ 13 ∧ byte p ≠ 10 := by
      simpa [proper, hs, hquoted] using hproper
    rw [readArgument]
    by_cases h32 : byte p = 32
    · rw [if_pos (by simp [h32, hquoted])]
      refine ⟨hstart, htext, by omega, fun _ => htag, ?_⟩
      simp only [Stage, hs]
      refine ⟨hsync, hlen, Or.inl ⟨hquoted, hstring.char ?_ ?_ hline.1 hline.2⟩⟩
      · rw [h32]
        decide
      · rw [h32]
        decide
    rw [if_neg (by simp [h32])]
    by_cases h34 : byte p = 34
    · rw [if_pos (by simp [h34, hquoted]), if_pos h34]
      dsimp only
      cases hpush : Session.push grow { s with quoted := false } s.argStart (p - s.argStart) with
      | none => trivial
      | some s' =>
          have hs' := push_some hpush
          subst hs'
          have hreads := hstring.reads h34
          have hbehind : behind (byte p) = .gap := by
            rw [behind, if_neg hline.1, if_neg hline.2]
          rw [← hbehind] at hreads
          exact readEnd_meets hstart htext (by omega) htag ⟨rfl, rfl, hsync, hlen⟩ hreads
    · rw [if_neg (by simp [h34, h32, hline.1, hline.2])]
      by_cases h92 : byte p = 92
      · rw [if_pos (by simp [h92, hquoted])]
        exact ⟨hstart, htext, by omega, fun _ => htag, hsync, hlen, hquoted, p, rfl, hstring, h92⟩
      · rw [if_neg (by simp [h92])]
        refine ⟨hstart, htext, by omega, fun _ => htag, ?_⟩
        simp only [Stage, hs]
        exact ⟨hsync, hlen, Or.inl ⟨hquoted, hstring.char h34 h92 hline.1 hline.2⟩⟩
  · rw [readArgument, if_neg (by simp [hquoted])]
    by_cases hend : (byte p = 32 || byte p = 13 || byte p = 10) = true
    · have hbreak : IsBreak (byte p) := by
        simpa [IsBreak, or_assoc] using hend
      have h34 : byte p ≠ 34 := by
        rintro h34
        rw [h34] at hend
        exact absurd hend (by decide)
      rw [if_pos (by simpa [hquoted] using hend), if_neg h34]
      dsimp only
      cases hpush : s.push grow s.argStart (p - s.argStart) with
      | none => trivial
      | some s' =>
          have hs' := push_some hpush
          subst hs'
          exact readEnd_meets hstart htext (by omega) htag ⟨rfl, hquoted, hsync, hlen⟩ (hatom.reads hbreak)
    · rw [if_neg (by simpa [hquoted] using hend), if_neg (by simp [hquoted])]
      have hbreak : ¬ IsBreak (byte p) := by
        simpa [IsBreak, or_assoc] using hend
      refine ⟨hstart, htext, by omega, fun _ => htag, ?_⟩
      simp only [Stage, hs]
      exact ⟨hsync, hlen, Or.inr ⟨hquoted, hatom.succ hbreak⟩⟩

theorem readBackslash_meets (hs : s.state = .backslash) (h : Holds byte ssl base text o p s)
    (hproper : proper (byte p) s = true) :
    (readBackslash byte p s).Meets (Holds byte ssl base text o (p + 1)) (Stopped byte ssl base text o p) := by
  obtain ⟨hstart, htext, hbase, htagged, hstage⟩ := h
  have htag : Tagged byte base (p + 1) s := (htagged (by rw [hs]; exact State.noConfusion)).succ
  simp only [Stage, hs] at hstage
  obtain ⟨hsync, hlen, hquoted, q, rfl, ⟨i, hi, hreads, hopen, hraw⟩, h92⟩ := hstage
  have hline : byte (q + 1) ≠ 13 ∧ byte (q + 1) ≠ 10 := by
    simpa [proper, hs] using hproper
  rw [readBackslash, if_neg (by simp [hline.1, hline.2])]
  exact ⟨hstart, htext, by omega, fun _ => htag, hsync, hlen,
    Or.inl ⟨hquoted, i, hi, hreads, hopen, hraw.pair h92 hline.1 hline.2⟩⟩

theorem readLiteral_meets (hs : s.state = .literal) (h : Holds byte ssl base text o p s)
    (hproper : proper (byte p) s = true) :
    (readLiteral byte p s).Meets (Holds byte ssl base text o (p + 1)) (Stopped byte ssl base text o p) := by
  obtain ⟨hstart, htext, hbase, htagged, hstage⟩ := h
  have htag : Tagged byte base (p + 1) s := (htagged (by rw [hs]; exact State.noConfusion)).succ
  simp only [Stage, hs] at hstage
  obtain ⟨harg, hquoted, hsync, h, hbefore, hopen, hnumber⟩ := hstage
  rw [readLiteral]
  by_cases hdigit : isDigit (byte p) = true
  · have hfits : s.literalLen * 10 + ((byte p).toNat - 48) < 2 ^ 64 := by
      simpa [proper, hs, hdigit] using hproper
    rw [if_pos hdigit, Nat.mod_eq_of_lt hfits]
    refine ⟨hstart, htext, by omega, fun _ => htag, ?_⟩
    simp only [Stage, hs]
    exact ⟨harg, hquoted, hsync, h, hbefore, hopen, hnumber.digit hdigit⟩
  rw [if_neg hdigit]
  by_cases h125 : byte p = 125
  · have hpos : s.literalLen ≠ 0 := by
      rw [h125] at hdigit hproper
      simpa [proper, hs, hdigit] using hproper
    rw [if_pos h125]
    exact ⟨hstart, htext, by omega, fun _ => htag, harg, hquoted, Nat.pos_of_ne_zero hpos, h, hbefore,
      .sync hopen hnumber h125⟩
  rw [if_neg h125]
  by_cases h43 : byte p = 43
  · have hpos : s.literalLen ≠ 0 := by
      rw [h43] at hdigit hproper
      simpa [proper, hs, hdigit] using hproper
    rw [if_pos h43]
    exact ⟨hstart, htext, by omega, fun _ => htag, harg, hquoted, Nat.pos_of_ne_zero hpos, h, p, rfl, hbefore, hopen,
      hnumber, h43⟩
  · rw [if_neg h43]
    exact ⟨hstart, harg⟩

theorem readNoSync_meets (hs : s.state = .noSyncLiteralArgument) (h : Holds byte ssl base text o p s) :
    (readNoSync byte p s).Meets (Holds byte ssl base text o (p + 1)) (Stopped byte ssl base text o p) := by
  obtain ⟨hstart, htext, hbase, htagged, hstage⟩ := h
  have htag : Tagged byte base (p + 1) s := (htagged (by rw [hs]; exact State.noConfusion)).succ
  simp only [Stage, hs] at hstage
  obtain ⟨harg, hquoted, hpos, h, q, rfl, hbefore, hopen, hnumber, hplus⟩ := hstage
  rw [readNoSync]
  by_cases h125 : byte (q + 1) = 125
  · rw [if_pos h125]
    exact ⟨hstart, htext, by omega, fun _ => htag, harg, hquoted, hpos, h, hbefore, .noSync hopen hnumber hplus h125⟩
  · rw [if_neg h125]
    exact ⟨hstart, harg⟩

theorem readLiteralStart_meets (hs : s.state = .startLiteralArgument) (h : Holds byte ssl base text o p s) :
    (readLiteralStart byte p s).Meets (Holds byte ssl base text o (p + 1)) (Stopped byte ssl base text o p) := by
  obtain ⟨hstart, htext, hbase, htagged, hstage⟩ := h
  have htag : Tagged byte base (p + 1) s := (htagged (by rw [hs]; exact State.noConfusion)).succ
  simp only [Stage, hs] at hstage
  obtain ⟨harg, hquoted, hpos, h, hbefore, head⟩ := hstage
  rw [readLiteralStart]
  by_cases h13 : byte p = 13
  · rw [if_pos h13]
    refine ⟨hstart, htext, by omega, fun _ => htag, ?_⟩
    simp only [Stage, hs]
    exact ⟨harg, hquoted, hpos, h, hbefore, head.cr h13⟩
  rw [if_neg h13]
  by_cases h10 : byte p = 10
  · rw [if_pos h10]
    cases hsync : s.noSyncLiteral with
    | true =>
        exact ⟨hstart, htext, by omega, fun _ => htag, hquoted, rfl, hpos, h, p, s.literalLen, hbefore, head, h10, rfl,
          hpos, rfl, Nat.le_refl _⟩
    | false =>
        exact ⟨rfl, hstart, htext, by omega, fun _ => htag, hquoted, rfl, hpos, h, p, s.literalLen, hbefore, head,
          h10, rfl, hpos, rfl, Nat.le_refl _⟩
  · rw [if_neg h10]
    exact ⟨hstart, harg⟩

-- The octets that are left and those behind arg_start make up the number that has been declared.
theorem readLiteralArgument_meets (hs : s.state = .literalArgument) (h : Holds byte ssl base text o p s) :
    (readLiteralArgument grow p s).Meets (Holds byte ssl base text o (p + 1)) (Stopped byte ssl base text o p) := by
  obtain ⟨hstart, htext, hbase, htagged, hstage⟩ := h
  have htag : Tagged byte base (p + 1) s := (htagged (by rw [hs]; exact State.noConfusion)).succ
  simp only [Stage, hs] at hstage
  obtain ⟨hquoted, hsync, hpos, h, a, n, ⟨pl, hreads, hpl⟩, head, hlf, harg, hn, hleft, hfirst⟩ := hstage
  rw [readLiteralArgument]
  by_cases hmore : s.literalLen - 1 ≠ 0
  · rw [if_pos hmore]
    refine ⟨hstart, htext, by omega, fun _ => htag, ?_⟩
    simp only [Stage, hs]
    exact ⟨hquoted, hsync, by omega, h, a, n, ⟨pl, hreads, hpl⟩, head, hlf, harg, hn, by omega, by omega⟩
  · rw [if_neg hmore]
    have hlast : s.literalLen - 1 = 0 := by omega
    dsimp only
    cases hpush : Session.push grow { s with literalLen := s.literalLen - 1 } s.argStart (p + 1 - s.argStart) with
    | none => trivial
    | some s' =>
        have hs' := push_some hpush
        subst hs'
        have hend := hreads.literal hpl head hlf hn
        have hsize : (p : Int) + 1 - (a + 1 : Nat) = (n : Int) := by omega
        have hnext : a + 1 + n = p + 1 := by omega
        rw [hnext, ← hsize, ← harg] at hend
        exact ⟨hstart, htext, by omega, fun _ => htag, ⟨rfl, hquoted, hsync, hlast⟩, hend⟩

theorem readLiteralEnd_meets (hs : s.state = .endLiteralArgument) (h : Holds byte ssl base text o p s) :
    (readLiteralEnd byte p s).Meets (Holds byte ssl base text o (p + 1)) (Stopped byte ssl base text o p) := by
  obtain ⟨hstart, htext, hbase, htagged, hstage⟩ := h
  have htag : Tagged byte base (p + 1) s := (htagged (by rw [hs]; exact State.noConfusion)).succ
  simp only [Stage, hs] at hstage
  obtain ⟨hquiet, hreads⟩ := hstage
  rw [readLiteralEnd]
  by_cases h123 : byte p = 123
  · rw [if_pos h123]
    split
    · have hnumber : Number byte (p + 1) (p + 1) s.literalLen := by
        rw [hquiet.2.2.2]
        exact .nil
      exact ⟨hstart, htext, by omega, fun _ => htag, hquiet.1, hquiet.2.1, hquiet.2.2.1, p,
        ⟨.literal, hreads, Or.inr rfl⟩, h123, hnumber⟩
    · exact ⟨hstart, hquiet.1⟩
  · rw [if_neg h123]
    exact readEnd_meets hstart htext (by omega) htag hquiet (hreads.separator h123)

theorem readAlmostDone_meets (hs : s.state = .almostDone) (h : Holds byte ssl base text o p s) :
    (readAlmostDone byte p s).Meets (Holds byte ssl base text o (p + 1)) (Stopped byte ssl base text o p) := by
  obtain ⟨hstart, htext, hbase, htagged, hstage⟩ := h
  have htag : Tagged byte base (p + 1) s := (htagged (by rw [hs]; exact State.noConfusion)).succ
  simp only [Stage, hs] at hstage
  obtain ⟨hquiet, hreads⟩ := hstage
  rw [readAlmostDone]
  by_cases h10 : byte p = 10
  · rw [if_pos h10]
    exact ⟨hstart, htext, htag, hquiet, hreads.crlf h10⟩
  · rw [if_neg h10]
    exact ⟨hstart, hquiet.1⟩

theorem turn_meets (h : Holds byte ssl base text o p s) (hproper : proper (byte p) s = true) :
    (turn ssl grow byte p s).Meets (Holds byte ssl base text o (p + 1)) (Stopped byte ssl base text o p) := by
  rw [turn]
  cases hs : s.state with
  | start => exact readTag_meets hs h
  | spacesBeforeCommand => exact readSpaces_meets hs h
  | command => exact readCommand_meets hs h
  | spacesBeforeArgument => exact readArgumentStart_meets hs h
  | argument => exact readArgument_meets hs h hproper
  | backslash => exact readBackslash_meets hs h hproper
  | literal => exact readLiteral_meets hs h hproper
  | noSyncLiteralArgument => exact readNoSync_meets hs h
  | startLiteralArgument => exact readLiteralStart_meets hs h
  | literalArgument => exact readLiteralArgument_meets hs h
  | endLiteralArgument => exact readLiteralEnd_meets hs h
  | almostDone => exact readAlmostDone_meets hs h

end Nginx.Imap
