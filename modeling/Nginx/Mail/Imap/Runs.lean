import Nginx.Mail.Imap.Stage

namespace Nginx.Imap

def properCall (ssl : Bool) (grow : Nat → Bool) (s : Session) : Bool :=
  Resumable.along (fun p found => proper (byteAt s.start s.text p) found) (turn ssl grow (byteAt s.start s.text))
    (s.last - s.pos) s.pos s

-- Whose text comes next: a state is kept over a command only to read the reply to a challenge.
def nextOrigin (rc : Rc) (o : Origin) (s : Session) : Origin :=
  match rc with
  | .again => o
  | .imapNext => o
  | _ => if s.state = .start then .request else .reply

-- The sessions between two calls of the parser, whose calls have all met a condition
inductive Reaches (ssl : Bool) (meets : (Nat → Bool) → Session → Bool) (start : Nat) : Origin → Session → Prop where
  | connected : Reaches ssl meets start .request (fresh start)
  | resumed {o : Origin} {s s₁ s₂ : Session} {piece : Bytes} {grow : Nat → Bool} {rc : Rc} {rejected : Bool}
      (h : Reaches ssl meets start o s) (hmeets : meets grow (s.receive piece) = true)
      (hparse : parseCommand ssl grow (s.receive piece) = (rc, s₁)) (hhandled : handled rc rejected s₁ = some s₂) :
      Reaches ssl meets start (nextOrigin rc o s₂) s₂

variable {byte byte' : Nat → UInt8} {ssl : Bool} {base : Nat} {text : Bytes} {o : Origin} {grow : Nat → Bool}
  {p : Nat} {s : Session}

section

variable (hagree : Agrees byte byte' base p)
include hagree

theorem AfterTag.congr {t : Nat} (h : AfterTag byte base p s t) : AfterTag byte' base p s t := by
  obtain ⟨hlen, htag, h32, hlt⟩ := h
  have hle := htag.1
  rw [hagree t hle hlt] at h32
  exact ⟨hlen, htag.congr (hagree.mono (Nat.le_refl base) (by omega)), h32, hlt⟩

theorem InString.congr (h : InString byte ssl base o p s) : InString byte' ssl base o p s := by
  obtain ⟨i, hi, hreads, hopen, hraw⟩ := h
  have hlt := hreads.start_lt
  have hle := hraw.le
  rw [hagree i (by omega) (by omega)] at hopen
  exact ⟨i, hi, hreads.congr (hagree.mono (Nat.le_refl base) (by omega)), hopen,
    hraw.congr (hagree.mono (by omega) (Nat.le_refl p))⟩

theorem InAtom.congr (h : InAtom byte ssl base o p s) : InAtom byte' ssl base o p s := by
  obtain ⟨hreads, h34, h123, hlt, hsolid⟩ | ⟨ho, hargs, t, hat, htag, h32, hsolid⟩ := h
  · have hstart := hreads.start_lt
    rw [hagree _ (by omega) hlt] at h34 h123
    exact Or.inl ⟨hreads.congr (hagree.mono (Nat.le_refl base) (by omega)), h34, h123, hlt,
      hsolid.congr (hagree.mono (by omega) (Nat.le_refl p))⟩
  · have hle := htag.1
    have hle' := hsolid.1
    rw [hagree t hle (by omega)] at h32
    exact Or.inr ⟨ho, hargs, t, hat, htag.congr (hagree.mono (Nat.le_refl base) (by omega)), h32,
      hsolid.congr (hagree.mono (by omega) (Nat.le_refl p))⟩

theorem BeforeLiteral.congr {h : Nat} {args : List Arg} (hbefore : BeforeLiteral byte ssl base o h args) (hle : h ≤ p) :
    BeforeLiteral byte' ssl base o h args :=
  hbefore.imp fun _ hreads => ⟨hreads.1.congr (hagree.mono (Nat.le_refl base) hle), hreads.2⟩

theorem Stage.congr (hle : base ≤ p) (h : Stage byte ssl base o p s) : Stage byte' ssl base o p s := by
  unfold Stage at h ⊢
  split at h
  · exact ⟨h.1, h.2.1, h.2.2.1, h.2.2.2.congr hagree⟩
  · obtain ⟨ho, hquiet, hargs, t, htag, hblank⟩ := h
    have := htag.2.1.1
    exact ⟨ho, hquiet, hargs, t, htag.congr hagree, hblank.congr (hagree.mono (by omega) (Nat.le_refl p))⟩
  · obtain ⟨ho, hquiet, hargs, t, htag, hlt, hblank, hname⟩ := h
    have := htag.2.1.1
    have := hname.1
    exact ⟨ho, hquiet, hargs, t, htag.congr hagree, hlt, hblank.congr (hagree.mono (by omega) (by omega)),
      hname.congr (hagree.mono (by omega) (Nat.le_refl p))⟩
  · exact ⟨h.1, h.2.congr hagree⟩
  · obtain ⟨hsync, hlen, ⟨hquoted, hstring⟩ | ⟨hquoted, hatom⟩⟩ := h
    · exact ⟨hsync, hlen, Or.inl ⟨hquoted, hstring.congr hagree⟩⟩
    · exact ⟨hsync, hlen, Or.inr ⟨hquoted, hatom.congr hagree⟩⟩
  · obtain ⟨hsync, hlen, hquoted, q, rfl, hstring, h92⟩ := h
    obtain ⟨i, -, hreads, -, hraw⟩ := id hstring
    have := hreads.start_lt
    have := hraw.le
    rw [hagree q (by omega) (by omega)] at h92
    exact ⟨hsync, hlen, hquoted, q, rfl, hstring.congr (hagree.mono (Nat.le_refl base) (by omega)), h92⟩
  · obtain ⟨harg, hquoted, hsync, h, hbefore, hopen, hnumber⟩ := h
    have hlt := hbefore.choose_spec.1.start_lt
    have hnumberLe := hnumber.le
    rw [hagree h (by omega) (by omega)] at hopen
    exact ⟨harg, hquoted, hsync, h, hbefore.congr hagree (by omega), hopen,
      hnumber.congr (hagree.mono (by omega) (Nat.le_refl p))⟩
  · obtain ⟨harg, hquoted, hpos, h, q, rfl, hbefore, hopen, hnumber, hplus⟩ := h
    have hlt := hbefore.choose_spec.1.start_lt
    have hnumberLe := hnumber.le
    rw [hagree h (by omega) (by omega)] at hopen
    rw [hagree q (by omega) (by omega)] at hplus
    exact ⟨harg, hquoted, hpos, h, q, rfl, hbefore.congr hagree (by omega), hopen,
      hnumber.congr (hagree.mono (by omega) (by omega)), hplus⟩
  · obtain ⟨harg, hquoted, hpos, h, hbefore, head⟩ := h
    have hlt := hbefore.choose_spec.1.start_lt
    have hheadLt := head.lt
    exact ⟨harg, hquoted, hpos, h, hbefore.congr hagree (by omega), head.congr (hagree.mono (by omega) (Nat.le_refl p))⟩
  · obtain ⟨hquoted, hsync, hpos, h, a, n, hbefore, head, hlf, harg, hn, hleft, hfirst⟩ := h
    have hlt := hbefore.choose_spec.1.start_lt
    have hheadLt := head.lt
    rw [hagree a (by omega) (by omega)] at hlf
    exact ⟨hquoted, hsync, hpos, h, a, n, hbefore.congr hagree (by omega),
      head.congr (hagree.mono (by omega) (by omega)), hlf, harg, hn, hleft, hfirst⟩
  · exact ⟨h.1, h.2.congr hagree⟩
  · exact ⟨h.1, h.2.congr hagree⟩

end

-- A session between two calls: what its state says holds of the text up to pos.
structure Rest (ssl : Bool) (o : Origin) (s : Session) : Prop where
  holds : Holds (byteAt s.start s.text) ssl s.start s.text o s.pos s
  pos_le : s.pos ≤ s.last

theorem byteAt_append (start : Nat) (text piece : Bytes) :
    Agrees (byteAt start text) (byteAt start (text ++ piece)) start (start + text.length) := by
  intro j h1 h2
  rw [byteAt, byteAt, List.getD_append text piece 0 (j - start) (by omega)]

theorem byteAt_take (start n : Nat) (text : Bytes) :
    Agrees (byteAt start text) (byteAt start (text.take n)) start (start + n) := by
  intro j h1 h2
  rw [byteAt, byteAt, List.getD_eq_getElem?_getD, List.getD_eq_getElem?_getD, List.getElem?_take_of_lt (by omega)]

theorem Rest.receive (h : Rest ssl o s) (piece : Bytes) : Rest ssl o (s.receive piece) := by
  obtain ⟨⟨-, -, hbase, htagged, hstage⟩, hle⟩ := h
  have hagree : Agrees (byteAt s.start s.text) (byteAt s.start (s.text ++ piece)) s.start s.pos :=
    (byteAt_append s.start s.text piece).mono (Nat.le_refl _) hle
  refine ⟨⟨rfl, rfl, hbase, ?_, hstage.congr hagree hbase⟩, ?_⟩
  · intro hne
    obtain ⟨t, ht⟩ := htagged hne
    exact ⟨t, ht.congr hagree⟩
  · have hlast : (s.receive piece).last = s.last + piece.length := by
      rw [Session.last, Session.last, Session.receive, List.length_append, Nat.add_assoc]
    have hpos : (s.receive piece).pos = s.pos := rfl
    omega

-- What a call comes to
def Parsed (ssl : Bool) (o : Origin) (found : Session) (rc : Rc) (s : Session) : Prop :=
  match rc with
  | .ok =>
      Complete (byteAt found.start found.text) ssl found.start found.text o s.pos s ∧ s.pos ≤ found.last ∧
        (s.state = .start ∨ s.state = .argument)
  | .again => Rest ssl o s
  | .imapNext => Rest ssl o s
  | .invalidCommand => s.Quiet
  | .error => True

theorem Holds.rest (h : Holds (byteAt base text) ssl base text o p s) (hle : p ≤ base + text.length) :
    Rest ssl o { s with pos := p } := by
  obtain ⟨rfl, rfl, hbase, htagged, hstage⟩ := h
  exact ⟨⟨rfl, rfl, hbase, htagged, hstage⟩, hle⟩

theorem Complete.close (h : Complete byte ssl base text o p s) : Complete byte ssl base text o p s.close :=
  ⟨h.start_eq, h.text_eq, h.tagged, h.quiet, h.reads⟩

theorem close_state (s : Session) : s.close.state = .start ∨ s.close.state = .argument := by
  unfold Session.close
  dsimp only
  split
  · exact Or.inl rfl
  · exact Or.inr rfl

theorem parseCommand_parsed (h : Rest ssl o s) (hproper : properCall ssl grow s = true) :
    Parsed ssl o s (parseCommand ssl grow s).1 (parseCommand ssl grow s).2 := by
  obtain ⟨hholds, hle⟩ := h
  have hend : s.pos + (s.last - s.pos) = s.last := by omega
  have hscan := Resumable.scan_meets (Holds (byteAt s.start s.text) ssl s.start s.text o)
    (fun q r => q < s.last ∧ Stopped (byteAt s.start s.text) ssl s.start s.text o q r) ?_ hproper hholds
  · rw [parseCommand, Resumable.call, hend]
    rw [hend] at hscan
    cases hresult : Resumable.scan (turn ssl grow (byteAt s.start s.text)) (s.last - s.pos) s.pos s with
    | next s' =>
        rw [hresult] at hscan
        exact hscan.rest (Nat.le_refl _)
    | stop r =>
        obtain ⟨q, stop⟩ := r
        rw [hresult] at hscan
        obtain ⟨hq, hstopped⟩ := hscan
        cases stop with
        | done s' =>
            have hdone : done grow s' = (.ok, s'.close) := by
              rw [done, if_neg (not_not.mpr hstopped.quiet.1)]
            dsimp only [Resumable.outcome, answer]
            rw [hdone]
            have hclosed := hstopped.close
            exact ⟨⟨hclosed.start_eq, hclosed.text_eq, hclosed.tagged, hclosed.quiet, hclosed.reads⟩, hq, close_state s'⟩
        | invalid s' => exact ⟨hstopped.2, rfl, rfl, rfl⟩
        | badLine s' => exact hstopped.2
        | imapNext s' =>
            obtain ⟨hpos, hnext⟩ := hstopped
            dsimp only [Resumable.outcome, answer]
            rw [hpos]
            exact hnext.rest hq
        | error s' => trivial
  · intro q found hq hfound hok
    have hmeets : (turn ssl grow (byteAt s.start s.text) q found).Meets
        (Holds (byteAt s.start s.text) ssl s.start s.text o (q + 1))
        (Stopped (byteAt s.start s.text) ssl s.start s.text o q) := turn_meets hfound hok
    cases hturn : turn ssl grow (byteAt s.start s.text) q found with
    | next s' =>
        rw [hturn] at hmeets
        exact hmeets
    | stop stop =>
        rw [hturn] at hmeets
        exact ⟨by omega, hmeets⟩

theorem fresh_rest (start : Nat) : Rest ssl .request (fresh start) :=
  ⟨⟨rfl, rfl, Nat.le_refl _, fun h => absurd rfl h, rfl, ⟨rfl, rfl, rfl, rfl⟩, rfl, Nat.le_refl _, 
    fun _ h1 h2 => absurd h2 (Nat.not_lt.mpr h1)⟩, Nat.le_refl _⟩

-- A session that keeps no state begins the next request at the start of the buffer.
theorem release_rest (hstate : s.state = .start) (hquiet : s.Quiet) : Rest ssl .request s.release := by
  unfold Session.release
  rw [if_neg (not_not.mpr hstate)]
  refine ⟨⟨rfl, rfl, Nat.le_refl _, fun h => absurd hstate h, ?_⟩, Nat.le_refl _⟩
  simp only [Stage, hstate]
  exact ⟨trivial, hquiet, trivial, Nat.le_refl _, fun i h1 h2 => by omega⟩

-- Behind an AUTHENTICATE the tag stays, and the reply is one word behind it.
theorem release_reply (hstate : s.state = .argument) (hquiet : s.Quiet)
    (htagged : Tagged (byteAt s.start s.text) s.start s.pos s) (hle : s.pos ≤ s.last) : Rest ssl .reply s.release := by
  obtain ⟨t, hlen, htag, h32, hlt⟩ := htagged
  have hbase := htag.1
  have hagree : Agrees (byteAt s.start s.text) (byteAt s.start (s.text.take s.tagLen)) s.start (t + 1) :=
    (byteAt_take s.start s.tagLen s.text).mono (Nat.le_refl _) (by omega)
  have htag' := htag.congr (hagree.mono (Nat.le_refl _) (Nat.le_succ t))
  rw [hagree t hbase (Nat.lt_succ_self t)] at h32
  have hpos : s.start + s.tagLen = t + 1 := by omega
  have hlast : s.last = s.start + s.text.length := rfl
  unfold Session.release
  rw [if_pos (by rw [hstate]; exact State.noConfusion)]
  refine ⟨⟨rfl, rfl, Nat.le_add_right _ _, fun _ => ⟨t, hlen, htag', h32, ?_⟩, ?_⟩, ?_⟩
  · show t < s.start + s.tagLen
    omega
  · simp only [Stage, hstate]
    refine ⟨hquiet.2.2.1, hquiet.2.2.2, Or.inr ⟨hquiet.2.1, Or.inr ⟨rfl, rfl, t, hpos, htag', h32, ?_⟩⟩⟩
    show Solid _ (t + 1) (s.start + s.tagLen)
    rw [hpos]
    exact ⟨Nat.le_refl _, fun i h1 h2 => by omega⟩
  · show s.start + s.tagLen ≤ s.start + (s.text.take s.tagLen).length
    rw [List.length_take]
    omega

theorem release_state (s : Session) : s.release.state = s.state := by
  unfold Session.release
  dsimp only
  split
  · rfl
  · rfl

theorem handled_rest {found s₂ : Session} {rc : Rc} {rejected : Bool} (h : Parsed ssl o found rc s)
    (hhandled : handled rc rejected s = some s₂) : Rest ssl (nextOrigin rc o s₂) s₂ := by
  cases rc with
  | ok =>
      obtain ⟨⟨hstart, htext, htagged, hquiet, -⟩, hle, hstate⟩ := h
      have hlast : s.last = found.last := by rw [Session.last, Session.last, hstart, htext]
      rw [← hstart, ← htext] at htagged
      rw [← hlast] at hle
      have hrequest (s' : Session) (hs' : s'.state = .start) (hq : s'.Quiet) (heq : s₂ = s'.release) :
          Rest ssl (nextOrigin .ok o s₂) s₂ := by
        rw [nextOrigin, if_pos (by rw [heq, release_state, hs']), heq]
        · exact release_rest hs' hq
        · exact Rc.noConfusion
        · exact Rc.noConfusion
      cases rejected with
      | true =>
          have hnext : s₂ = Session.release { s with backslash := false, state := .start } :=
            (Option.some.inj hhandled).symm
          exact hrequest { s with backslash := false, state := .start } rfl hquiet hnext
      | false =>
          have hnext : s₂ = Session.release { s with backslash := false } := (Option.some.inj hhandled).symm
          obtain hstate | hstate := hstate
          · exact hrequest { s with backslash := false } hstate hquiet hnext
          · have hs₂ : s₂.state = .argument := by rw [hnext]; exact (release_state _).trans hstate
            rw [nextOrigin, if_neg (by rw [hs₂]; exact State.noConfusion), hnext]
            · exact release_reply hstate hquiet htagged hle
            · exact Rc.noConfusion
            · exact Rc.noConfusion
  | again =>
      obtain rfl := Option.some.inj hhandled
      exact h
  | imapNext =>
      obtain rfl := Option.some.inj hhandled
      exact h
  | invalidCommand =>
      obtain rfl := Option.some.inj hhandled
      rw [nextOrigin, if_pos (release_state _)]
      · exact release_rest rfl h
      · exact Rc.noConfusion
      · exact Rc.noConfusion
  | error => cases hhandled

theorem reaches_rest {start : Nat} (h : Reaches ssl (properCall ssl) start o s) : Rest ssl o s := by
  induction h with
  | connected => exact fresh_rest start
  | resumed _ hproper hparse hhandled ih =>
      have hparsed := parseCommand_parsed (ih.receive _) hproper
      rw [hparse] at hparsed
      exact handled_rest hparsed hhandled

-- What NGX_OK promises of s->args: they are the arguments of the text that has been read, slices of it, each an atom,
-- the inside of a quoted string or as many octets as a literal declares.
def Arguments (ssl : Bool) (o : Origin) (s : Session) : Prop :=
  s.pos ≤ s.last ∧ Reads (byteAt s.start s.text) ssl s.start o .ended s.pos s.args ∧
    ∀ arg ∈ s.args, arg.Within s.start s.pos ∧ Argument (byteAt s.start s.text) arg

-- Where no CR and no LF stands in a quoted string and every literal declares from 1 to 2^64 - 1 octets.
theorem imap_arguments_exact {start : Nat} (h : Reaches ssl (properCall ssl) start o s) (piece : Bytes)
    (hproper : properCall ssl grow (s.receive piece) = true) {s' : Session}
    (hok : parseCommand ssl grow (s.receive piece) = (.ok, s')) : Arguments ssl o s' := by
  have hparsed := parseCommand_parsed ((reaches_rest h).receive piece) hproper
  rw [hok] at hparsed
  obtain ⟨⟨hstart, htext, -, -, hreads⟩, hle, -⟩ := hparsed
  have hlast : s'.last = (s.receive piece).last := by rw [Session.last, Session.last, hstart, htext]
  rw [← hstart, ← htext] at hreads
  rw [← hlast] at hle
  exact ⟨hle, hreads, fun arg harg => ⟨hreads.within arg harg, hreads.arguments arg harg⟩⟩

-- A literal that is continued in a second piece, and a quoted string
def waiting : Session :=
  (parseCommand true (fun _ => true) ((fresh 1).receive (ngxString "a LOGIN \x7b3\x7d\r\n"))).2

def answered : Session :=
  (parseCommand true (fun _ => true) (waiting.receive (ngxString "x y \"b \\\"c\"\r\n"))).2

theorem imap_arguments_exact_answered :
    Arguments true .request answered ∧ answered.args = [⟨14, 3⟩, ⟨19, 5⟩] := by
  have hparse : parseCommand true (fun _ => true) ((fresh 1).receive (ngxString "a LOGIN \x7b3\x7d\r\n")) =
      (.imapNext, waiting) := Prod.ext (by decide) rfl
  have hhandled : handled .imapNext false waiting = some waiting := rfl
  have hreaches : Reaches true (properCall true) 1 .request waiting :=
    .resumed .connected (by decide) hparse hhandled
  have hok : parseCommand true (fun _ => true) (waiting.receive (ngxString "x y \"b \\\"c\"\r\n")) = (.ok, answered) :=
    Prod.ext (by decide) rfl
  exact ⟨imap_arguments_exact hreaches _ (by decide) hok, by decide⟩

-- After a literal without octets one more is waited for, and taken.
def waitingForNone : Session :=
  (parseCommand true (fun _ => true) ((fresh 1).receive (ngxString "a LOGIN \x7b0\x7d\r\n"))).2

def answeredNone : Session :=
  (parseCommand true (fun _ => true) (waitingForNone.receive (ngxString " \r\n"))).2

def noneText : Bytes := ngxString "a LOGIN \x7b0\x7d\r\n \r\n"

theorem no_head_of_one {h : Nat} (head : LiteralHead (byteAt 1 noneText) h 13 1) : False := by
  cases head with
  | sync _ _ hclose => exact absurd hclose (by decide)
  | noSync _ _ _ hclose => exact absurd hclose (by decide)
  | cr head _ =>
      cases head with
      | sync _ hnumber _ =>
          obtain hn | ⟨j, m, hj, hn⟩ := hnumber.last_digit
          · cases hn
          · obtain rfl : j = 10 := by omega
            have hzero : (byteAt 1 noneText 10).toNat = 48 := by decide
            omega
      | noSync _ _ hplus _ => exact absurd hplus (by decide)
      | cr _ hcr => exact absurd hcr (by decide)

theorem imap_arguments_not_always :
    ¬ ∀ (ssl : Bool) (start : Nat) (o : Origin) (s s' : Session) (grow : Nat → Bool) (piece : Bytes),
      Reaches ssl (fun _ _ => true) start o s → parseCommand ssl grow (s.receive piece) = (.ok, s') →
      ∀ arg ∈ s'.args, arg.Within s'.start s'.pos ∧ Argument (byteAt s'.start s'.text) arg := by
  intro hall
  have hparse : parseCommand true (fun _ => true) ((fresh 1).receive (ngxString "a LOGIN \x7b0\x7d\r\n")) =
      (.imapNext, waitingForNone) := Prod.ext (by decide +kernel) rfl
  have hhandled : handled .imapNext false waitingForNone = some waitingForNone := rfl
  have hreaches : Reaches true (fun _ _ => true) 1 .request waitingForNone := .resumed .connected rfl hparse hhandled
  have hok : parseCommand true (fun _ => true) (waitingForNone.receive (ngxString " \r\n")) = (.ok, answeredNone) :=
    Prod.ext (by decide) rfl
  have hargs : answeredNone.args = [⟨14, 1⟩] := by decide
  have hstart : answeredNone.start = 1 := by decide
  have htext : answeredNone.text = noneText := by decide
  have harg := (hall true 1 .request waitingForNone answeredNone _ _ hreaches hok ⟨14, 1⟩
    (by rw [hargs]; exact List.mem_singleton_self _)).2
  rw [hstart, htext] at harg
  generalize hx : (⟨14, 1⟩ : Arg) = arg at harg
  cases harg with
  | @atom a e hatom _ =>
      obtain ⟨rfl, hlen⟩ := Arg.mk.inj hx
      exact hatom.2 14 (Nat.le_refl _) (by omega) (Or.inl (by decide))
  | @string i e hopen _ _ =>
      obtain ⟨hi, -⟩ := Arg.mk.inj hx
      obtain rfl : i = 13 := by omega
      exact absurd hopen (by decide)
  | @literal h a n head _ =>
      obtain ⟨ha, hn⟩ := Arg.mk.inj hx
      obtain rfl : a = 13 := by omega
      obtain rfl : n = 1 := by omega
      exact no_head_of_one head

end Nginx.Imap
