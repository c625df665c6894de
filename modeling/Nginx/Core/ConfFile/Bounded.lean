import Nginx.Core.ConfFile.Refill

namespace Nginx.ConfFile

def Place.quoteChar : Place → Option UInt8
  | .quote q => some q
  | _ => none

-- A token of the dialect of the flags, in which no more than the buffer stands between start and b->pos
def boundedToken : Nat → Lex → Bytes → Rc × List Bytes × Bytes
  | _, s, [] => (s.eof, s.args, [])
  | n, s, c :: text =>
      if n = bufferSize then (.error (.tooLong s.place.quoteChar), s.args, c :: text)
      else
        match step asRead s c with
        | .go s' => boundedToken (advance n s c) s' text
        | .done rc args => (rc, args, text)

-- The flags at a place; within quotes variable does not matter.
def Lex.flags (inVariable : Bool) (s : Lex) : Flags :=
  match s.place with
  | .space => {}
  | .comment => { sharpComment := true }
  | .closed => { needSpace := true, lastSpace := false }
  | .quote q => { lastSpace := false, quoted := s.escaped, inVariable, dQuoted := q == 34, sQuoted := q == 39 }
  | .word => { lastSpace := false, quoted := s.escaped, inVariable := s.dollar }

-- The bytes since start stand for the word so far.
def Lex.Spelled (s : Lex) (raw : Bytes) : Prop :=
  match s.place with
  | .quote q => (q = 34 ∨ q = 39) ∧
      if s.escaped then ∃ front, raw = front ++ [92] ∧ Copies front s.word else Copies raw s.word
  | .word => if s.escaped then ∃ front, raw = front ++ [92] ∧ Copies front s.word else Copies raw s.word
  | _ => True

-- How a turn of the loop goes with a step of the grammar
inductive Follows (s : Lex) (c : UInt8) (raw : Bytes) : Turn → Move → Prop
  | next (s' : Lex) (inVariable : Bool) : starts s c = false → s'.args = s.args → s'.Spelled (raw ++ [c]) →
      Follows s c raw (.next (s'.flags inVariable)) (.go s')
  | start (s' : Lex) (inVariable : Bool) : starts s c = true → s'.args = s.args →
      s'.Spelled (if c = 34 ∨ c = 39 then [] else [c]) →
      Follows s c raw (.start (if c = 34 ∨ c = 39 then 0 else 1) (s'.flags inVariable)) (.go s')
  | found (s' : Lex) (inVariable : Bool) : starts s c = false → c ≠ 59 → c ≠ 123 →
      s'.args = s.args ++ [copyWord (raw ++ [c])] → s'.Spelled (raw ++ [c]) →
      Follows s c raw (.found (s'.flags inVariable)) (.go s')
  | stop (rc : Rc) : Follows s c raw (.stop rc) (.done rc s.args)
  | last (flags : Flags) (rc : Rc) : c = 59 ∧ rc = .ok ∨ c ≠ 59 ∧ c = 123 ∧ rc = .blockStart →
      Follows s c raw (.found flags) (.done rc (s.args ++ [copyWord (raw ++ [c])]))

variable {s : Lex} {c : UInt8} {raw : Bytes}

theorem opening_follows (hplace : s.place = .space ∨ s.place = .closed ∧ c = 41) :
    Follows s c raw (spaceTurn {} s.args.length c) (opening asRead s.args c) := by
  have hargs : s.args.length = 0 ↔ s.args = [] := List.length_eq_zero_iff
  have hstarts : isBlank c = false → starts s c = true := by
    intro hblank
    rcases hplace with hspace | ⟨hclosed, rfl⟩
    · simp [starts, hspace, hblank]
    · simp [starts, hclosed]
  unfold spaceTurn opening
  by_cases hblank : isBlank c = true
  · rw [if_pos hblank, if_pos hblank]
    have hspace : s.place = .space := by
      rcases hplace with hspace | ⟨-, rfl⟩
      · exact hspace
      · exact absurd hblank (by decide)
    exact .next { args := s.args } false (by simp [starts, hspace, hblank]) rfl trivial
  · have hbegins := hstarts (by simpa using hblank)
    rw [if_neg hblank, if_neg hblank]
    by_cases hend : c = 59 ∨ c = 123
    · rw [if_pos hend, if_pos hend]
      by_cases hnone : s.args = []
      · rw [if_pos (hargs.mpr hnone), if_pos hnone]
        exact .stop _
      · rw [if_neg (fun h => hnone (hargs.mp h)), if_neg hnone]
        split <;> exact .stop _
    · rw [if_neg hend, if_neg hend]
      by_cases hclose : c = 125
      · rw [if_pos hclose, if_pos hclose]
        by_cases hnone : s.args = []
        · rw [if_neg (not_not.mpr (hargs.mpr hnone)), if_pos hnone]
          exact .stop _
        · rw [if_pos (fun h => hnone (hargs.mp h)), if_neg hnone, hclose]
          exact .stop _
      · rw [if_neg hclose, if_neg hclose]
        by_cases hsharp : c = 35
        · rw [if_pos hsharp, if_pos hsharp]
          have hback : (if c = 34 ∨ c = 39 then 0 else 1) = 1 := by
            rw [hsharp]
            rfl
          have hfollows : Follows s c raw _ _ := .start { place := .comment, args := s.args } false hbegins rfl trivial
          rw [hback] at hfollows
          exact hfollows
        · rw [if_neg hsharp, if_neg hsharp]
          by_cases hslash : c = 92
          · rw [if_pos hslash, if_pos hslash]
            subst hslash
            exact Follows.start { place := .word, escaped := true, args := s.args } false hbegins rfl
              ⟨[], rfl, Copies.nil⟩
          · rw [if_neg hslash, if_neg hslash]
            by_cases hdouble : c = 34
            · rw [if_pos hdouble, if_pos (Or.inl hdouble)]
              subst hdouble
              exact Follows.start { place := .quote 34, args := s.args } false hbegins rfl
                ⟨Or.inl rfl, Copies.nil⟩
            · rw [if_neg hdouble]
              by_cases hsingle : c = 39
              · rw [if_pos hsingle, if_pos (Or.inr hsingle)]
                subst hsingle
                exact Follows.start { place := .quote 39, args := s.args } false hbegins rfl
                  ⟨Or.inr rfl, Copies.nil⟩
              · have hquote : ¬ (c = 34 ∨ c = 39) := not_or.mpr ⟨hdouble, hsingle⟩
                rw [if_neg hsingle, if_neg hquote]
                have hspelled : Lex.Spelled { place := .word, word := [c], args := s.args }
                    (if c = 34 ∨ c = 39 then [] else [c]) := by
                  rw [if_neg hquote]
                  exact Copies.nil.plain hslash
                have hfollows : Follows s c raw _ _ :=
                  .start { place := .word, word := [c], args := s.args } false hbegins rfl hspelled
                rw [if_neg hquote] at hfollows
                exact hfollows

-- Outside of comments the end of a line changes no flag.
theorem turn_plain {flags : Flags} (hsharp : flags.sharpComment = false) (nelts : Nat) (c : UInt8) :
    turn flags nelts c =
      if flags.quoted then .next { flags with quoted := false }
      else if flags.needSpace then
        if isBlank c then .next { flags with lastSpace := true, needSpace := false }
        else if c = 59 then .stop .ok
        else if c = 123 then .stop .blockStart
        else if c = 41 then spaceTurn { flags with lastSpace := true, needSpace := false } nelts c
        else .stop (.error (.unexpected c))
      else if flags.lastSpace then spaceTurn flags nelts c
      else wordTurn flags c := by
  have hflags : (if c = 10 then { flags with sharpComment := false } else flags) = flags := by
    split
    · cases flags
      subst hsharp
      rfl
    · rfl
  unfold turn
  dsimp only
  rw [hflags, hsharp, if_neg Bool.false_ne_true]

theorem comment_follows (hplace : s.place = .comment) (v : Bool) :
    Follows s c raw (turn (s.flags v) s.args.length c) (step asRead s c) := by
  have hstarts : starts s c = false := by simp [starts, hplace]
  have hspelled : ∀ raw, s.Spelled raw := fun raw => by
    unfold Lex.Spelled
    rw [hplace]
    trivial
  rw [Lex.flags, hplace, step, hplace]
  dsimp only
  by_cases hline : c = 10
  · rw [if_pos hline]
    subst hline
    exact Follows.next { args := s.args } false hstarts rfl trivial
  · rw [if_neg hline]
    have hturn : turn { sharpComment := true } s.args.length c = .next (s.flags v) := by
      rw [turn, if_neg hline, Lex.flags, hplace]
      rfl
    rw [hturn]
    exact .next s v hstarts rfl (hspelled _)

theorem closed_follows (hplace : s.place = .closed) (v : Bool) :
    Follows s c raw (turn (s.flags v) s.args.length c) (step asRead s c) := by
  rw [Lex.flags, hplace, step, hplace, turn_plain rfl]
  dsimp only
  rw [if_neg Bool.false_ne_true, if_pos rfl]
  by_cases hblank : isBlank c = true
  · have hstarts : starts s c = false := by
      simp only [starts, hplace]
      have hne : c ≠ 41 := fun h => by
        subst h
        exact absurd hblank (by decide)
      simp [hne]
    rw [if_pos hblank, if_pos hblank]
    exact Follows.next { args := s.args } false hstarts rfl trivial
  · rw [if_neg hblank, if_neg hblank]
    split
    · exact .stop _
    · split
      · exact .stop _
      · split
        · rename_i hparen
          exact opening_follows (Or.inr ⟨hplace, hparen⟩)
        · exact .stop _

theorem space_follows (hplace : s.place = .space) (v : Bool) :
    Follows s c raw (turn (s.flags v) s.args.length c) (step asRead s c) := by
  rw [Lex.flags, hplace, step, hplace, turn_plain rfl]
  dsimp only
  rw [if_neg Bool.false_ne_true, if_neg Bool.false_ne_true, if_pos rfl]
  exact opening_follows (Or.inl hplace)

theorem quote_follows {q : UInt8} {escaped dollar : Bool} {word : Bytes} {args : List Bytes} (v : Bool)
    (hspelled : Lex.Spelled ⟨.quote q, escaped, dollar, word, args⟩ raw) :
    Follows ⟨.quote q, escaped, dollar, word, args⟩ c raw
      (turn (Lex.flags v ⟨.quote q, escaped, dollar, word, args⟩) args.length c)
      (step asRead ⟨.quote q, escaped, dollar, word, args⟩ c) := by
  obtain ⟨hq, hcopies⟩ := hspelled
  unfold Lex.flags step
  dsimp only at hcopies ⊢
  rw [turn_plain rfl]
  dsimp only
  cases escaped with
  | true =>
      obtain ⟨front, rfl, hfront⟩ := hcopies
      exact Follows.next ⟨.quote q, false, dollar, word ++ escape c, args⟩ v rfl rfl
        ⟨hq, hfront.escaped c⟩
  | false =>
      have hplain : c ≠ 92 → Lex.Spelled ⟨.quote q, false, dollar, word ++ [c], args⟩ (raw ++ [c]) :=
        fun hslash => ⟨hq, Copies.plain hcopies hslash⟩
      have hword : copyWord (raw ++ [c]) = word := Copies.word hcopies c
      unfold wordTurn
      dsimp only
      rw [if_neg Bool.false_ne_true, if_neg Bool.false_ne_true, if_neg Bool.false_ne_true, if_neg Bool.false_ne_true]
      by_cases hslash : c = 92
      · subst hslash
        exact Follows.next ⟨.quote q, true, dollar, word, args⟩ false rfl rfl ⟨hq, raw, rfl, hcopies⟩
      · rw [if_neg hslash, if_neg hslash]
        by_cases hend : c = q
        · rw [if_pos hend]
          have hfound : Follows ⟨.quote q, false, dollar, word, args⟩ c raw _ _ :=
            .found { place := .closed, args := args ++ [word] } false rfl
            (by rcases hq with rfl | rfl <;> rw [hend] <;> decide) (by rcases hq with rfl | rfl <;> rw [hend] <;> decide)
            (by rw [hword]) trivial
          rcases hq with rfl | rfl
          · subst hend
            exact hfound
          · subst hend
            exact hfound
        · rw [if_neg hend]
          have hnext : ∀ v, Follows ⟨.quote q, false, dollar, word, args⟩ c raw
              (.next (Lex.flags v ⟨.quote q, false, dollar, word ++ [c], args⟩))
              (.go ⟨.quote q, false, dollar, word ++ [c], args⟩) := fun v => .next _ _ rfl rfl (hplain hslash)
          split
          · exact hnext v
          · split
            · exact hnext true
            · rcases hq with rfl | rfl
              · rw [if_pos (by decide), if_neg hend]
                exact hnext false
              · rw [if_neg (by decide), if_pos (by decide), if_neg hend]
                exact hnext false

theorem word_follows {escaped dollar : Bool} {word : Bytes} {args : List Bytes} (v : Bool)
    (hspelled : Lex.Spelled ⟨.word, escaped, dollar, word, args⟩ raw) :
    Follows ⟨.word, escaped, dollar, word, args⟩ c raw
      (turn (Lex.flags v ⟨.word, escaped, dollar, word, args⟩) args.length c)
      (step asRead ⟨.word, escaped, dollar, word, args⟩ c) := by
  have hcopies := hspelled
  unfold Lex.flags step
  unfold Lex.Spelled at hcopies
  dsimp only at hcopies ⊢
  rw [turn_plain rfl]
  dsimp only
  cases escaped with
  | true =>
      obtain ⟨front, rfl, hfront⟩ := hcopies
      exact Follows.next ⟨.word, false, dollar, word ++ escape c, args⟩ v rfl rfl (hfront.escaped c)
  | false =>
      have hword : copyWord (raw ++ [c]) = word := Copies.word hcopies c
      have hnext : c ≠ 92 → ∀ dollar', Follows ⟨.word, false, dollar, word, args⟩ c raw
          (.next (Lex.flags v ⟨.word, false, dollar', word ++ [c], args⟩))
          (.go ⟨.word, false, dollar', word ++ [c], args⟩) :=
        fun hslash dollar' => .next _ _ rfl rfl (Copies.plain hcopies hslash)
      unfold wordTurn
      dsimp only
      rw [if_neg Bool.false_ne_true, if_neg Bool.false_ne_true, if_neg Bool.false_ne_true, if_neg Bool.false_ne_true]
      by_cases hbrace : c = 123 ∧ dollar = true
      · rw [if_pos hbrace, if_pos hbrace]
        have hgo := hnext (by rw [hbrace.1]; decide) true
        rw [hbrace.2]
        rw [hbrace.2] at hgo
        exact hgo
      · rw [if_neg hbrace, if_neg hbrace]
        by_cases hslash : c = 92
        · subst hslash
          exact Follows.next ⟨.word, true, false, word, args⟩ v rfl rfl ⟨raw, rfl, hcopies⟩
        · rw [if_neg hslash, if_neg hslash]
          by_cases hvariable : c = 36
          · subst hvariable
            exact hnext (by decide) true
          · rw [if_neg hvariable, if_neg Bool.false_ne_true, if_neg Bool.false_ne_true]
            by_cases hblank : isBlank c = true
            · rw [if_pos (Or.inl hblank), if_pos hblank]
              refine Follows.found { args := args ++ [word] } v rfl ?_ ?_ (by rw [hword]) trivial
              · rintro rfl
                exact absurd hblank (by decide)
              · rintro rfl
                exact absurd hblank (by decide)
            · rw [if_neg hblank]
              by_cases hsemi : c = 59
              · rw [if_pos (Or.inr (Or.inl hsemi)), if_pos hsemi]
                have hlast : Follows ⟨.word, false, dollar, word, args⟩ c raw _ _ :=
                  .last ⟨false, true, false, false, false, false, false⟩ .ok (Or.inl ⟨hsemi, rfl⟩)
                rw [hword] at hlast
                exact hlast
              · rw [if_neg hsemi]
                by_cases hopen : c = 123
                · rw [if_pos (Or.inr (Or.inr hopen)), if_pos hopen]
                  have hlast : Follows ⟨.word, false, dollar, word, args⟩ c raw _ _ :=
                    .last ⟨false, true, false, false, false, false, false⟩ .blockStart (Or.inr ⟨hsemi, hopen, rfl⟩)
                  rw [hword] at hlast
                  exact hlast
                · have hnone : ¬ (isBlank c = true ∨ c = 59 ∨ c = 123) := by
                    rintro (h | h | h)
                    · exact hblank h
                    · exact hsemi h
                    · exact hopen h
                  have hbeq : (c == 36) = false := by simpa using hvariable
                  rw [if_neg hnone, if_neg hopen, hbeq]
                  exact hnext hslash false

theorem turn_follows (s : Lex) (c : UInt8) (raw : Bytes) (v : Bool) (hspelled : s.Spelled raw) :
    Follows s c raw (turn (s.flags v) s.args.length c) (step asRead s c) := by
  obtain ⟨place, escaped, dollar, word, args⟩ := s
  cases place with
  | space => exact space_follows rfl v
  | comment => exact comment_follows rfl v
  | word => exact word_follows v hspelled
  | quote q => exact quote_follows v hspelled
  | closed => exact closed_follows rfl v

theorem flags_quote (v : Bool) (hspelled : s.Spelled raw) :
    (if (s.flags v).dQuoted then some 34 else if (s.flags v).sQuoted then some 39 else none) = s.place.quoteChar := by
  obtain ⟨place, escaped, dollar, word, args⟩ := s
  cases place with
  | quote q =>
      obtain ⟨rfl | rfl, -⟩ := hspelled
      · rfl
      · rfl
  | space => rfl
  | comment => rfl
  | word => rfl
  | closed => rfl

-- The loop reads the token of the grammar with the buffer.
theorem readLoop_bounded (text : Bytes) (fuel : Nat) (f : Conf) (start : Nat) (s : Lex) (v : Bool) (h : f.Before text)
    (hfuel : text.length < fuel) (hstart : start ≤ f.pos) (hspelled : s.Spelled (f.raw start)) :
    ∃ f', readLoop fuel f start (s.flags v) s.args =
        ((boundedToken (f.pos - start) s text).1, (boundedToken (f.pos - start) s text).2.1, f') ∧
      f'.Before (boundedToken (f.pos - start) s text).2.2 := by
  induction text generalizing fuel f start s v with
  | nil =>
      obtain ⟨fuel, rfl⟩ : ∃ n, fuel = n + 1 := ⟨fuel - 1, by omega⟩
      refine ⟨f, ?_, h⟩
      rw [readLoop, refill_eof h, boundedToken, Lex.eof]
      cases s.args with
      | nil => rfl
      | cons w args => rfl
  | cons c text ih =>
      obtain ⟨fuel, rfl⟩ : ∃ n, fuel = n + 1 := ⟨fuel - 1, by omega⟩
      rw [List.length_cons] at hfuel
      by_cases hlen : f.pos - start = bufferSize
      · refine ⟨f, ?_, ?_⟩
        · rw [readLoop, refill_tooLong h start _ _ hlen, boundedToken, if_pos hlen]
          rw [flags_quote v hspelled]
        · rw [boundedToken, if_pos hlen]
          exact h
      · obtain ⟨f₁, start₁, hrefill, hbefore, hpos, hstart₁, hraw⟩ := refill_next h start (s.flags v) s.args.length hstart hlen
        obtain ⟨hch, hread, hraw'⟩ := Conf.read hbefore hpos hstart₁
        have hsame : f₁.pos - start₁ = f.pos - start := by
          rw [← Conf.raw_length hbefore, hraw, Conf.raw_length h]
        have hfollows := turn_follows s c (f.raw start) v hspelled
        have hslice : (f₁.buf.take (f₁.pos + 1)).drop start₁ = f.raw start ++ [c] := by
          rw [← hraw, ← hraw']
          rfl
        rw [readLoop, hrefill]
        dsimp only
        rw [hch, hslice, boundedToken, if_neg hlen]
        generalize turn (s.flags v) s.args.length c = t at hfollows
        generalize step asRead s c = m at hfollows
        have hgo : starts s c = false → advance (f.pos - start) s c = f₁.pos + 1 - start₁ := by
          intro hstarts
          rw [advance, hstarts, if_neg Bool.false_ne_true]
          omega
        have hmore := hraw'.trans (by rw [hraw] : f₁.raw start₁ ++ [c] = f.raw start ++ [c])
        cases hfollows with
        | next s' v' hstarts hargs hspelled' =>
            dsimp only
            rw [hgo hstarts, ← hargs]
            exact ih fuel _ start₁ s' v' hread (by omega) (Nat.le_succ_of_le hstart₁)
              (by rw [hmore]; exact hspelled')
        | start s' v' hstarts hargs hspelled' =>
            have hempty : f₁.raw f₁.pos = [] := by
              apply List.eq_nil_of_length_eq_zero
              rw [Conf.raw_length hbefore, Nat.sub_self]
            have hone := (Conf.read hbefore hpos (Nat.le_refl f₁.pos)).2.2
            rw [hempty, List.nil_append] at hone
            dsimp only
            rw [advance, hstarts, if_pos rfl, ← hargs]
            by_cases hquote : c = 34 ∨ c = 39
            · rw [if_pos hquote] at hspelled' ⊢
              have hnil : Conf.raw { f₁ with pos := f₁.pos + 1 } (f₁.pos + 1) = [] := by
                apply List.eq_nil_of_length_eq_zero
                rw [Conf.raw_length hread, Nat.sub_self]
              have hrec := ih fuel _ (f₁.pos + 1) s' v' hread (by omega) (Nat.le_refl _) (by rw [hnil]; exact hspelled')
              dsimp only at hrec
              rw [Nat.sub_self] at hrec
              exact hrec
            · rw [if_neg hquote] at hspelled' ⊢
              have hrec := ih fuel _ f₁.pos s' v' hread (by omega) (Nat.le_succ _) (by rw [hone]; exact hspelled')
              dsimp only at hrec
              rw [Nat.add_sub_cancel_left] at hrec
              exact hrec
        | found s' v' hstarts hsemi hopen hargs hspelled' =>
            dsimp only
            rw [if_neg hsemi, if_neg hopen, hgo hstarts]
            rw [← hargs]
            exact ih fuel _ start₁ s' v' hread (by omega) (Nat.le_succ_of_le hstart₁)
              (by rw [hmore]; exact hspelled')
        | stop rc => exact ⟨_, rfl, hread⟩
        | last flags rc hlast =>
            dsimp only
            rcases hlast with ⟨hsemi, rfl⟩ | ⟨hsemi, hopen, rfl⟩
            · rw [if_pos hsemi]
              exact ⟨_, rfl, hread⟩
            · rw [if_neg hsemi, if_pos hopen]
              exact ⟨_, rfl, hread⟩

end Nginx.ConfFile
