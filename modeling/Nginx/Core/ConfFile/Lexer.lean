import Nginx.Core.ConfFile.Bounded

namespace Nginx.ConfFile

variable {d : Dialect} {s s' : Lex} {c : UInt8} {text : Bytes} {before : List Bytes} {front : Bytes}

def Opens (args : List Bytes) : Move → Prop
  | .go s' => s'.args = args
  | .done rc args' => args' = args ∧ ∀ q, rc ≠ .error (.tooLong q)

theorem opening_move (d : Dialect) (args : List Bytes) (c : UInt8) : Opens args (opening d args c) := by
  unfold opening
  split
  · rfl
  · split
    · split
      · exact ⟨rfl, by simp⟩
      · exact ⟨rfl, by intro q; split <;> simp⟩
    · split
      · split
        · exact ⟨rfl, by simp⟩
        · exact ⟨rfl, by simp⟩
      · split
        · rfl
        · split
          · rfl
          · split <;> rfl

-- A step adds one word at most, and a word that is read only grows. No word is too long.
def Advances (s : Lex) : Move → Prop
  | .go s' => s'.args = s.args ∧ (s.place = .word → s'.place = .word ∧ s.word <+: s'.word) ∨ s'.args = s.args ++ [s.word]
  | .done rc args => (args = s.args ∧ s.place ≠ .word ∨ args = s.args ++ [s.word]) ∧ ∀ q, rc ≠ .error (.tooLong q)

theorem step_move (d : Dialect) (s : Lex) (c : UInt8) : Advances s (step d s c) := by
  have hopening : s.place ≠ .word → Advances s (opening d s.args c) := by
    intro hplace
    have hmove := opening_move d s.args c
    cases hopen : opening d s.args c with
    | go s' =>
        rw [hopen] at hmove
        exact Or.inl ⟨hmove, fun hword => absurd hword hplace⟩
    | done rc args =>
        rw [hopen] at hmove
        exact ⟨Or.inl ⟨hmove.1, hplace⟩, hmove.2⟩
  obtain ⟨place, escaped, dollar, word, args⟩ := s
  unfold step
  cases place with
  | space => exact hopening (by simp)
  | comment =>
      dsimp only
      split
      · exact Or.inl ⟨rfl, by simp⟩
      · exact Or.inl ⟨rfl, by simp⟩
  | closed =>
      dsimp only
      split
      · exact Or.inl ⟨rfl, by simp⟩
      · split
        · exact ⟨Or.inl ⟨rfl, by simp⟩, by simp⟩
        · split
          · exact ⟨Or.inl ⟨rfl, by simp⟩, by simp⟩
          · split
            · exact hopening (by simp)
            · exact ⟨Or.inl ⟨rfl, by simp⟩, by simp⟩
  | quote q =>
      dsimp only
      split
      · exact Or.inl ⟨rfl, by simp⟩
      · split
        · exact Or.inl ⟨rfl, by simp⟩
        · split
          · exact Or.inr rfl
          · exact Or.inl ⟨rfl, by simp⟩
  | word =>
      dsimp only
      split
      · exact Or.inl ⟨rfl, fun _ => ⟨rfl, List.prefix_append _ _⟩⟩
      · split
        · exact Or.inl ⟨rfl, fun _ => ⟨rfl, List.prefix_append _ _⟩⟩
        · split
          · exact Or.inl ⟨rfl, fun _ => ⟨rfl, List.prefix_refl _⟩⟩
          · split
            · exact Or.inr rfl
            · split
              · exact ⟨Or.inr rfl, by simp⟩
              · split
                · exact ⟨Or.inr rfl, by simp⟩
                · exact Or.inl ⟨rfl, fun _ => ⟨rfl, List.prefix_append _ _⟩⟩

theorem token_rc (d : Dialect) (s : Lex) (text : Bytes) (q : Option UInt8) : (token d s text).1 ≠ .error (.tooLong q) := by
  induction text generalizing s with
  | nil =>
      rw [token, Lex.eof]
      split <;> simp
  | cons c text ih =>
      have hmove := step_move d s c
      rw [token]
      cases hstep : step d s c with
      | go s' => exact ih s'
      | done rc args =>
          rw [hstep] at hmove
          exact hmove.2 q

-- A word with this front has been read, or it is being read.
def Past (front : Bytes) (before args : List Bytes) : Prop := ∃ word more, args = before ++ word :: more ∧ front <+: word

def Growing (front : Bytes) (before : List Bytes) (s : Lex) : Prop :=
  s.place = .word ∧ s.args = before ∧ front <+: s.word ∨ Past front before s.args

theorem Past.append {args : List Bytes} (h : Past front before args) (more : List Bytes) :
    Past front before (args ++ more) := by
  obtain ⟨word, rest, rfl, hfront⟩ := h
  exact ⟨word, rest ++ more, by simp, hfront⟩

theorem Growing.step (h : Growing front before s) (c : UInt8) :
    match step d s c with
    | .go s' => Growing front before s'
    | .done _ args => Past front before args := by
  have hmove := step_move d s c
  cases hstep : ConfFile.step d s c with
  | go s' =>
      rw [hstep] at hmove
      rcases h with ⟨hplace, hargs, hfront⟩ | hpast
      · rcases hmove with ⟨hsame, hword⟩ | hmore
        · obtain ⟨hplace', hgrown⟩ := hword hplace
          exact Or.inl ⟨hplace', hsame.trans hargs, hfront.trans hgrown⟩
        · exact Or.inr ⟨s.word, [], by rw [hmore, hargs], hfront⟩
      · right
        rcases hmove with ⟨hsame, -⟩ | hmore
        · rw [hsame]
          exact hpast
        · rw [hmore]
          exact hpast.append _
  | done rc args =>
      rw [hstep] at hmove
      rcases h with ⟨hplace, hargs, hfront⟩ | hpast
      · rcases hmove.1 with ⟨-, hne⟩ | hmore
        · exact absurd hplace hne
        · exact ⟨s.word, [], by rw [hmore, hargs], hfront⟩
      · rcases hmove.1 with ⟨hsame, -⟩ | hmore
        · rw [hsame]
          exact hpast
        · rw [hmore]
          exact hpast.append _

-- The word is among the words of the token, unless no token comes out.
theorem Growing.token (h : Growing front before s) (text : Bytes) :
    Past front before (token d s text).2.1 ∨ (token d s text).1.final = true := by
  induction text generalizing s with
  | nil =>
      right
      rw [ConfFile.token, Lex.eof]
      split <;> rfl
  | cons c text ih =>
      have hgrown := h.step (d := d) c
      rw [ConfFile.token]
      cases hstep : ConfFile.step d s c with
      | go s' =>
          rw [hstep] at hgrown
          exact ih hgrown
      | done rc args =>
          rw [hstep] at hgrown
          exact Or.inl hgrown

theorem Growing.boundedToken (h : Growing front before s) (n : Nat) (text : Bytes) :
    Past front before (boundedToken n s text).2.1 ∨ (boundedToken n s text).1.final = true := by
  induction text generalizing n s with
  | nil =>
      right
      rw [ConfFile.boundedToken, Lex.eof]
      split <;> rfl
  | cons c text ih =>
      have hgrown := h.step (d := asRead) c
      rw [ConfFile.boundedToken]
      split
      · exact Or.inr rfl
      · cases hstep : ConfFile.step asRead s c with
        | go s' =>
            rw [hstep] at hgrown
            exact ih hgrown _
        | done rc args =>
            rw [hstep] at hgrown
            exact Or.inl hgrown

-- Two tokens differ if one ends with a word and the other goes on with it.
theorem Past.ne {args : List Bytes} {rc rc' : Rc} (h : Past front before args ∨ rc.final = true) (hrc : rc'.final = false)
    {word : Bytes} (hshort : word.length < front.length) : (rc, args) ≠ (rc', before ++ [word]) := by
  intro heq
  obtain ⟨rfl, rfl⟩ := Prod.mk.inj heq
  rcases h with ⟨w, more, hargs, hfront⟩ | hfinal
  · obtain ⟨rfl, -⟩ := List.cons.inj (List.append_cancel_left hargs)
    exact absurd hfront.length_le (by omega)
  · rw [hrc] at hfinal
    exact absurd hfinal (by simp)

-- A word that is read has a byte, and a dollar alone is not yet one that takes a brace.
def Begun (s : Lex) : Prop :=
  s.place = .word → if s.escaped then s.dollar = false else s.word ≠ [] ∧ (s.dollar = true → s.word ≠ [36])

theorem append_ne_dollar {word : Bytes} (hne : word ≠ []) (c : UInt8) : word ++ [c] ≠ [36] := by
  intro heq
  have hlen := congrArg List.length heq
  have hpos := List.length_pos_iff.mpr hne
  rw [List.length_append, List.length_singleton, List.length_singleton] at hlen
  omega

theorem escape_ne (c : UInt8) : escape c ≠ [] := by
  unfold escape
  split
  · simp
  · split
    · simp
    · split
      · simp
      · split <;> simp

-- The two dialects part at a dollar that begins a word, and at a brace that was taken.
theorem step_same (hspace : ¬ (s.place = .space ∧ c = 36))
    (hbrace : ¬ (s.place = .word ∧ s.escaped = false ∧ s.dollar = true ∧ c = 123)) :
    step reference s c = step asRead s c := by
  have hopening : c ≠ 36 → opening reference s.args c = opening asRead s.args c := by
    intro hne
    have hbeq : (c == 36) = false := by simpa using hne
    unfold opening
    rw [hbeq, Bool.and_false, Bool.and_false]
  obtain ⟨place, escaped, dollar, word, args⟩ := s
  unfold step
  cases place with
  | space => exact hopening (fun hc => hspace ⟨rfl, hc⟩)
  | comment => rfl
  | closed =>
      dsimp only at hopening ⊢
      by_cases hparen : c = 41
      · rw [hopening (by rw [hparen]; decide)]
      · rw [if_neg hparen, if_neg hparen]
  | quote q => rfl
  | word =>
      dsimp only
      cases escaped with
      | true => rfl
      | false =>
          have hnot : ¬ (c = 123 ∧ dollar = true) := fun h => hbrace ⟨rfl, rfl, h.2, h.1⟩
          rw [if_neg hnot, if_neg hnot]

def Begins : Move → Prop
  | .go s' => Begun s'
  | .done _ _ => True

theorem begun_step (h : Begun s) (c : UInt8) : Begins (step asRead s c) := by
  have hopening : Begins (opening asRead s.args c) := by
    unfold opening
    split
    · exact fun hword => absurd hword (by simp)
    · split
      · split <;> trivial
      · split
        · split <;> trivial
        · split
          · exact fun hword => absurd hword (by simp)
          · split
            · exact fun _ => rfl
            · split
              · exact fun hword => absurd hword (by simp)
              · exact fun _ => ⟨by simp, fun hdollar => absurd hdollar (by simp [asRead])⟩
  obtain ⟨place, escaped, dollar, word, args⟩ := s
  unfold step
  cases place with
  | space => exact hopening
  | comment =>
      dsimp only
      split <;> exact fun hword => absurd hword (by simp)
  | closed =>
      dsimp only
      split
      · exact fun hword => absurd hword (by simp)
      · split
        · trivial
        · split
          · trivial
          · split
            · exact hopening
            · trivial
  | quote q =>
      dsimp only
      split
      · exact fun hword => absurd hword (by simp)
      · split
        · exact fun hword => absurd hword (by simp)
        · split <;> exact fun hword => absurd hword (by simp)
  | word =>
      have hword := h rfl
      dsimp only at hword ⊢
      cases escaped with
      | true =>
          rw [if_pos rfl] at hword
          intro _
          refine ⟨fun hnil => escape_ne c (List.append_eq_nil_iff.mp hnil).2, ?_⟩
          rw [hword]
          exact fun hfalse => absurd hfalse (by simp)
      | false =>
          obtain ⟨hne, -⟩ := hword
          rw [if_neg Bool.false_ne_true]
          split
          · exact fun _ => ⟨by simp, fun _ => append_ne_dollar hne c⟩
          · split
            · exact fun _ => rfl
            · split
              · exact fun hplace => absurd hplace (by simp)
              · split
                · trivial
                · split
                  · trivial
                  · exact fun _ => ⟨by simp, fun _ => append_ne_dollar hne c⟩

-- A state of the reference grammar and what the flags make of it
inductive Coupled (text : Bytes) : Lex → Lex → Prop
  | same (s : Lex) : Begun s → Coupled text s s
  | begun (args : List Bytes) : Coupled text ⟨.word, false, true, [36], args⟩ ⟨.word, false, false, [36], args⟩
  | taken (word : Bytes) (args : List Bytes) : word ≠ [] → word ≠ [36] → text.head? ≠ some 123 →
      Coupled text ⟨.word, false, false, word, args⟩ ⟨.word, false, true, word, args⟩

theorem Coupled.place {r m : Lex} (h : Coupled text r m) : r.place = m.place := by
  cases h <;> rfl

theorem word_step_same (hc : c ≠ 123) (dollar dollar' : Bool) (word : Bytes) (args : List Bytes) :
    step reference ⟨.word, false, dollar, word, args⟩ c = step asRead ⟨.word, false, dollar', word, args⟩ c := by
  have hnot : ∀ dollar : Bool, ¬ (c = 123 ∧ dollar = true) := fun _ h => hc h.1
  unfold step
  dsimp only
  rw [if_neg Bool.false_ne_true, if_neg (hnot dollar), if_neg Bool.false_ne_true, if_neg (hnot dollar')]

theorem Coupled.step {r m : Lex} (h : Coupled (c :: text) r m) (hread : ¬ Misread r c text) :
    (∃ r' m', ConfFile.step reference r c = .go r' ∧ ConfFile.step asRead m c = .go m' ∧ Coupled text r' m') ∨
      ∃ rc args, ConfFile.step reference r c = .done rc args ∧ ConfFile.step asRead m c = .done rc args := by
  -- A step that is the same for both ends where both may go on.
  have hequal : ∀ {m : Lex} {move : Move}, Begun m → move = ConfFile.step asRead m c →
      (∃ r' m', move = .go r' ∧ ConfFile.step asRead m c = .go m' ∧ Coupled text r' m') ∨
        ∃ rc args, move = .done rc args ∧ ConfFile.step asRead m c = .done rc args := by
    intro m move hbegun hmove
    have hbegins := begun_step hbegun c
    cases hstep : ConfFile.step asRead m c with
    | go m' =>
        rw [hstep] at hbegins
        exact Or.inl ⟨m', m', hmove.trans hstep, rfl, .same m' hbegins⟩
    | done rc args => exact Or.inr ⟨rc, args, hmove.trans hstep, rfl⟩
  cases h with
  | same _ hbegun =>
      by_cases hspace : r.place = .space ∧ c = 36
      · obtain ⟨place, escaped, dollar, word, args⟩ := r
        obtain ⟨rfl, rfl⟩ := hspace
        exact Or.inl ⟨_, _, rfl, rfl, .begun args⟩
      · by_cases hbrace : r.place = .word ∧ r.escaped = false ∧ r.dollar = true ∧ c = 123
        · obtain ⟨place, escaped, dollar, word, args⟩ := r
          obtain ⟨rfl, rfl, rfl, rfl⟩ := hbrace
          obtain ⟨hne, hdollar⟩ := hbegun rfl
          have hhead : text.head? ≠ some 123 := fun heq => hread ⟨rfl, rfl, rfl, rfl, Or.inr heq⟩
          exact Or.inl ⟨_, _, rfl, rfl, .taken (word ++ [123]) args (by simp) (append_ne_dollar hne 123) hhead⟩
        · exact hequal hbegun (step_same hspace hbrace)
  | begun args =>
      have hc : c ≠ 123 := fun heq => hread ⟨rfl, rfl, rfl, heq, Or.inl rfl⟩
      exact hequal (fun _ => ⟨by simp, fun hfalse => absurd hfalse (by simp)⟩) (word_step_same hc true false [36] args)
  | taken word args hne hdollar hhead =>
      have hc : c ≠ 123 := fun heq => hhead (by rw [heq]; rfl)
      exact hequal (fun _ => ⟨hne, fun _ => hdollar⟩) (word_step_same hc false true word args)

-- What is misread ends a word in one dialect, and the other goes on with it.
theorem Coupled.misread {r m : Lex} (h : Coupled (c :: text) r m) (hread : Misread r c text) (n : Nat) :
    ((boundedToken n m (c :: text)).1, (boundedToken n m (c :: text)).2.1) ≠
      ((token reference r (c :: text)).1, (token reference r (c :: text)).2.1) := by
  by_cases hlen : n = bufferSize
  · intro heq
    rw [boundedToken, if_pos hlen] at heq
    exact token_rc reference r (c :: text) _ (Prod.mk.inj heq).1.symm
  · cases h with
    | same _ hbegun =>
        obtain ⟨place, escaped, dollar, word, args⟩ := r
        obtain ⟨rfl, rfl, rfl, rfl, hcase⟩ := hread
        obtain ⟨hne, hdollar⟩ := hbegun rfl
        obtain ⟨rest, rfl⟩ : ∃ rest, text = 123 :: rest := by
          cases text with
          | nil => exact absurd (hcase.resolve_left (hdollar rfl)) (by simp)
          | cons b rest =>
              obtain rfl := Option.some.inj (hcase.resolve_left (hdollar rfl))
              exact ⟨rest, rfl⟩
        have hreference : token reference ⟨.word, false, true, word, args⟩ (123 :: 123 :: rest) =
            (.blockStart, args ++ [word ++ [123]], rest) := rfl
        have hasRead : boundedToken n ⟨.word, false, true, word, args⟩ (123 :: 123 :: rest) =
            boundedToken (advance n ⟨.word, false, true, word, args⟩ 123) ⟨.word, false, true, word ++ [123], args⟩
              (123 :: rest) := by
          rw [boundedToken, if_neg hlen]
          rfl
        have hgrown : Growing (word ++ [123] ++ [123]) args ⟨.word, false, true, word ++ [123] ++ [123], args⟩ :=
          Or.inl ⟨rfl, rfl, List.prefix_refl _⟩
        have hpast : ∀ n, Past (word ++ [123] ++ [123]) args
              (boundedToken n ⟨.word, false, true, word ++ [123], args⟩ (123 :: rest)).2.1 ∨
            (boundedToken n ⟨.word, false, true, word ++ [123], args⟩ (123 :: rest)).1.final = true := by
          intro n
          rw [boundedToken]
          split
          · exact Or.inr rfl
          · exact hgrown.boundedToken _ rest
        rw [hreference, hasRead]
        exact Past.ne (hpast _) rfl (by simp)
    | begun args =>
        obtain ⟨-, -, -, rfl, -⟩ := hread
        have hasRead : boundedToken n ⟨.word, false, false, [36], args⟩ (123 :: text) =
            (.blockStart, args ++ [[36]], text) := by
          rw [boundedToken, if_neg hlen]
          rfl
        have hreference : token reference ⟨.word, false, true, [36], args⟩ (123 :: text) =
            token reference ⟨.word, false, false, [36, 123], args⟩ text := rfl
        rw [hasRead, hreference]
        have hgrown : Growing [36, 123] args ⟨.word, false, false, [36, 123], args⟩ := Or.inl ⟨rfl, rfl, List.prefix_refl _⟩
        exact (Past.ne (hgrown.token text) rfl (by simp)).symm
    | taken word args hne hdollar hhead => exact absurd hread.2.2.1 (by simp)

-- A token is read as the reference grammar has it if and only if it fits.
theorem boundedToken_fits (text : Bytes) (n : Nat) (r m : Lex) (h : Coupled text r m) (hn : n ≤ bufferSize) :
    (Fits n r text → boundedToken n m text = token reference r text) ∧
      (¬ Fits n r text → ((boundedToken n m text).1, (boundedToken n m text).2.1) ≠
        ((token reference r text).1, (token reference r text).2.1)) := by
  induction text generalizing n r m with
  | nil =>
      constructor
      · intro _
        rw [boundedToken, token]
        cases h <;> rfl
      · intro hnot
        exact absurd trivial hnot
  | cons c text ih =>
      by_cases hlen : n = bufferSize
      · constructor
        · intro hfits
          exact absurd hfits.1 (by omega)
        · intro _ heq
          rw [boundedToken, if_pos hlen] at heq
          exact token_rc reference r (c :: text) _ (Prod.mk.inj heq).1.symm
      · by_cases hread : Misread r c text
        · exact ⟨fun hfits => absurd hread hfits.2.1, fun _ => h.misread hread n⟩
        · have hadvance : advance n m c = advance n r c := by
            rw [advance, advance, starts, starts, h.place]
          rw [boundedToken, if_neg hlen, token, Fits, hadvance]
          rcases h.step hread with ⟨r', m', hr, hm, hcoupled⟩ | ⟨rc, args, hr, hm⟩
          · rw [hr, hm]
            dsimp only
            have hle : advance n r c ≤ bufferSize := by
              have hone : 1 ≤ bufferSize := by decide
              rw [advance]
              split
              · split <;> omega
              · omega
            obtain ⟨hsame, hdiffer⟩ := ih (advance n r c) r' m' hcoupled hle
            constructor
            · rintro ⟨-, -, hfits⟩
              exact hsame hfits
            · intro hnot
              exact hdiffer (fun hfits => hnot ⟨by omega, hread, hfits⟩)
          · rw [hr, hm]
            dsimp only
            constructor
            · intro _
              rfl
            · intro hnot
              exact absurd ⟨by omega, hread, trivial⟩ hnot

-- One call of ngx_conf_read_token
theorem readToken_bounded {f : Conf} (h : f.Before text) :
    ∃ f', readToken f = ((boundedToken 0 {} text).1, (boundedToken 0 {} text).2.1, f') ∧
      f'.Before (boundedToken 0 {} text).2.2 := by
  have hloop := readLoop_bounded text (f.left + 1) f f.pos {} false h (by rw [h.left]; omega) (Nat.le_refl _) trivial
  rw [Nat.sub_self] at hloop
  exact hloop

theorem readTokens_fit (fuel : Nat) {f : Conf} (h : f.Before text) :
    readTokens fuel f = tokensFrom reference fuel text ↔ AllFit fuel text := by
  induction fuel generalizing f text with
  | zero => exact ⟨fun _ => trivial, fun _ => rfl⟩
  | succ fuel ih =>
      obtain ⟨f', hread, hbefore⟩ := readToken_bounded h
      obtain ⟨hsame, hdiffer⟩ := boundedToken_fits text 0 {} {} (.same _ (fun hword => absurd hword (by simp)))
        (Nat.zero_le _)
      rw [readTokens, tokensFrom, AllFit, hread]
      dsimp only
      by_cases hfits : Fits 0 {} text
      · rw [hsame hfits] at hbefore ⊢
        rw [List.cons.injEq, eq_self_iff_true, true_and, and_iff_right hfits]
        cases hfinal : (token reference {} text).1.final with
        | true => simp
        | false =>
            rw [if_neg Bool.false_ne_true, if_neg Bool.false_ne_true, ih hbefore]
            simp
      · constructor
        · intro heq
          exact absurd (List.cons.inj heq).1 (hdiffer hfits)
        · intro hall
          exact absurd hall.1 hfits

theorem tokens_reference_iff (file : Bytes) : tokens file = referenceTokens file ↔ Readable file :=
  readTokens_fit (file.length + 1) (Conf.opened_before file)

-- A brace behind a dollar at the beginning of a word opens a block.
theorem tokens_dollar_begins :
    ¬ ∀ file : Bytes, file.length < bufferSize → tokens file = referenceTokens file := by
  intro hall
  exact absurd (hall (ngxString "set $\x7ba\x7d b;") (by decide)) (by decide)

theorem comment_fits {n : Nat} {args : List Bytes} (hline : 10 ∉ text) (hlen : bufferSize < n + text.length)
    (hn : n ≤ bufferSize) : ¬ Fits n { place := .comment, args } text := by
  induction text generalizing n with
  | nil =>
      rw [List.length_nil] at hlen
      omega
  | cons c text ih =>
      obtain ⟨hc, hrest⟩ := not_or.mp (fun h => hline (List.mem_cons.mpr h))
      rintro ⟨hlt, -, hfits⟩
      have hstep : step reference { place := .comment, args } c = .go { place := .comment, args } := by
        unfold step
        dsimp only
        rw [if_neg (fun heq => hc heq.symm)]
      rw [hstep] at hfits
      rw [List.length_cons] at hlen
      exact ih hrest (by rw [advance]; simp [starts]; omega) (by rw [advance]; simp [starts]; omega) hfits

-- A comment that does not end within the buffer is taken for a parameter that is too long.
theorem tokens_comment_ne (comment : Bytes) (hline : 10 ∉ comment) (hlen : bufferSize ≤ comment.length) :
    tokens (35 :: comment) ≠ referenceTokens (35 :: comment) := by
  intro heq
  obtain ⟨⟨-, -, hfits⟩, -⟩ := (readTokens_fit _ (Conf.opened_before (35 :: comment))).mp heq
  have hadvance : advance 0 {} 35 = 1 := by decide
  rw [hadvance] at hfits
  exact comment_fits hline (by omega) (by decide) hfits

end Nginx.ConfFile
