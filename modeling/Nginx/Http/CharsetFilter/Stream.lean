import Nginx.Http.CharsetFilter.Decode

namespace Nginx.CharsetFilter

-- What bytes are recoded to, and the bytes at their end that are not yet a character
inductive Scans (table : Table) : Bytes → Bytes → Bytes → Prop
  | nil : Scans table [] [] []
  | ascii {c : UInt8} {s o r : Bytes} : c < 0x80 → Scans table s o r → Scans table (c :: s) (c :: o) r
  | cut {c : UInt8} {s : Bytes} : 0x80 ≤ c → s.length < need c → Scans table (c :: s) [] (c :: s)
  | symbol {c : UInt8} {s o r : Bytes} {n k : Nat} : 0x80 ≤ c → need c ≤ s.length →
      utf8Decode (c :: s) (s.length + 1) = some (n, k) → Scans table ((c :: s).drop k) o r →
      Scans table (c :: s) (symbol table n ++ o) r

variable {table : Table}

-- The bytes behind a window do not change what it decodes to.
theorem utf8Decode_append (c : UInt8) (s more : Bytes) (h : need c ≤ s.length) :
    ∃ n k, utf8Decode (c :: s) (s.length + 1) = some (n, k) ∧ n ≠ incomplete ∧ 1 ≤ k ∧ k ≤ need c + 1 ∧
      utf8Decode (c :: (s ++ more)) ((s ++ more).length + 1) = some (n, k) := by
  have hlen : (s.take (need c)).length = need c := List.length_take_of_le h
  obtain ⟨n, k, hdecode, hne, hpos, hle, -⟩ := utf8Decode_window c (s.take (need c)) hlen
  have hone := hdecode (s.drop (need c)) (s.length + 1) (by omega)
  have htwo := hdecode (s.drop (need c) ++ more) ((s ++ more).length + 1) (by rw [List.length_append]; omega)
  rw [List.cons_append, List.take_append_drop] at hone
  rw [List.cons_append, ← List.append_assoc, List.take_append_drop] at htwo
  exact ⟨n, k, hone, hne, hpos, hle, htwo⟩

theorem scans_exists (table : Table) (s : Bytes) : ∃ o r, Scans table s o r := by
  induction hlen : s.length using Nat.strongRecOn generalizing s with
  | _ len ih =>
      cases s with
      | nil => exact ⟨[], [], .nil⟩
      | cons c s =>
          rw [List.length_cons] at hlen
          by_cases hc : c < 0x80
          · obtain ⟨o, r, h⟩ := ih s.length (by omega) s rfl
            exact ⟨_, _, .ascii hc h⟩
          · have hhigh : 0x80 ≤ c := UInt8.not_lt.mp hc
            by_cases hneed : s.length < need c
            · exact ⟨_, _, .cut hhigh hneed⟩
            · obtain ⟨n, k, hdecode, -, hpos, -, -⟩ := utf8Decode_append c s [] (by omega)
              have hshort : ((c :: s).drop k).length < len := by
                rw [List.length_drop, List.length_cons]
                omega
              obtain ⟨o, r, h⟩ := ih _ hshort _ rfl
              exact ⟨_, _, .symbol hhigh (by omega) hdecode h⟩

theorem Scans.unique {s o r o' r' : Bytes} (h : Scans table s o r) (h' : Scans table s o' r') : o = o' ∧ r = r' := by
  induction h generalizing o' r' with
  | nil =>
      cases h'
      exact ⟨rfl, rfl⟩
  | @ascii c s o r hc hs ih =>
      cases h' with
      | ascii hc' hs' =>
          obtain ⟨rfl, rfl⟩ := ih hs'
          exact ⟨rfl, rfl⟩
      | cut hhigh hneed => exact absurd hc (UInt8.not_lt.mpr hhigh)
      | symbol hhigh hneed hdecode hs' => exact absurd hc (UInt8.not_lt.mpr hhigh)
  | @cut c s hhigh hneed =>
      cases h' with
      | ascii hc' hs' => exact absurd hc' (UInt8.not_lt.mpr hhigh)
      | cut hhigh' hneed' => exact ⟨rfl, rfl⟩
      | symbol hhigh' hneed' hdecode hs' => exact absurd hneed (Nat.not_lt.mpr hneed')
  | @symbol c s o r n k hhigh hneed hdecode hs ih =>
      cases h' with
      | ascii hc' hs' => exact absurd hc' (UInt8.not_lt.mpr hhigh)
      | cut hhigh' hneed' => exact absurd hneed' (Nat.not_lt.mpr hneed)
      | symbol hhigh' hneed' hdecode' hs' =>
          rw [hdecode, Option.some.injEq, Prod.mk.injEq] at hdecode'
          obtain ⟨rfl, rfl⟩ := hdecode'
          obtain ⟨rfl, rfl⟩ := ih hs'
          exact ⟨rfl, rfl⟩

-- The bytes that are left begin a character and do not end it.
def Begun (r : Bytes) : Prop := ∃ c t, r = c :: t ∧ 0x80 ≤ c ∧ t.length < need c

theorem Scans.left {s o r : Bytes} (h : Scans table s o r) : r = [] ∨ Begun r := by
  induction h with
  | nil => exact Or.inl rfl
  | ascii hc hs ih => exact ih
  | @cut c s hhigh hneed => exact Or.inr ⟨c, s, rfl, hhigh, hneed⟩
  | symbol hhigh hneed hdecode hs ih => exact ih

-- What comes later goes on with the bytes that are left.
theorem Scans.append {x o r y o' r' : Bytes} (h : Scans table x o r) (h' : Scans table (r ++ y) o' r') :
    Scans table (x ++ y) (o ++ o') r' := by
  induction h with
  | nil => exact h'
  | ascii hc hs ih => exact .ascii hc (ih h')
  | cut hhigh hneed => exact h'
  | @symbol c s o r n k hhigh hneed hdecode hs ih =>
      obtain ⟨m, j, hdecode', -, -, hle, hmore⟩ := utf8Decode_append c s y hneed
      rw [hdecode, Option.some.injEq, Prod.mk.injEq] at hdecode'
      obtain ⟨rfl, rfl⟩ := hdecode'
      have hdrop : (c :: (s ++ y)).drop k = (c :: s).drop k ++ y := by
        rw [← List.cons_append, List.drop_append_of_le_length]
        rw [List.length_cons]
        omega
      have hrest := ih h'
      have hlong : need c ≤ (s ++ y).length := by
        rw [List.length_append]
        omega
      rw [← hdrop] at hrest
      rw [List.append_assoc]
      exact .symbol hhigh hlong hmore hrest

theorem Scans.append_left {x y o r o' r' : Bytes} (h : Scans table x o r) (h' : Scans table (x ++ y) o' r') :
    ∃ o'', Scans table (r ++ y) o'' r' ∧ o' = o ++ o'' := by
  obtain ⟨o'', r'', hrest⟩ := scans_exists table (r ++ y)
  obtain ⟨ho, rfl⟩ := h'.unique (h.append hrest)
  exact ⟨o'', hrest, ho⟩

-- ctx->saved has these bytes.
structure Holds (ctx : Ctx) (held : Bytes) : Prop where
  size : ctx.saved.length = utfLen
  len : ctx.savedLen = held.length
  saved : ctx.saved.take held.length = held

theorem Ctx.save_all (ctx : Ctx) (i : Nat) (text : Bytes) (len : Nat) (h : i + len ≤ utfLen) (hlen : len ≤ text.length) :
    ctx.save i text len = some { ctx with saved := ctx.saved.take i ++ text.take len ++ ctx.saved.drop (i + len) } := by
  rw [Ctx.save, if_pos ⟨h, hlen⟩]

-- Bytes that are saved from the front on
theorem Ctx.save_holds (ctx : Ctx) (held : Bytes) (hsize : ctx.saved.length = utfLen) (h : held.length ≤ utfLen) :
    ∃ ctx', ctx.save 0 held held.length = some ctx' ∧ Holds { ctx' with savedLen := held.length } held := by
  have hall : held.take held.length = held := List.take_length
  refine ⟨_, Ctx.save_all ctx 0 held held.length (by omega) (Nat.le_refl _), ?_, rfl, ?_⟩
  · simp only [List.take_zero, List.nil_append, List.length_append, List.length_drop, hall, hsize, Nat.zero_add]
    omega
  · dsimp only
    rw [List.take_zero, List.nil_append, hall, List.take_left]

theorem Out.put_fits (b : Out) (text : Bytes) (h : b.bytes.length + text.length ≤ b.room) :
    b.put text = some { b with bytes := b.bytes ++ text } := by
  rw [Out.put, if_pos h]

variable (extra : Nat → Nat)

-- A turn of the loop has room for a character.
theorem recodeLoop_turn (fuel : Nat) (ctx : Ctx) (done : List Out) (b : Out) (c : UInt8) (rest : Bytes)
    (hctx : Holds ctx []) :
    ∃ ctx' done' b', outBytes done' ++ b'.bytes = outBytes done ++ b.bytes ∧ b'.bytes.length + entityLen ≤ b'.room ∧
      Holds ctx' [] ∧
      recodeLoop extra table (fuel + 1) ctx done b (c :: rest) =
        if c < 0x80 then (b'.put [c]).bind fun b => recodeLoop extra table fuel ctx' done' b rest
        else
          (utf8Decode (c :: rest) (rest.length + 1)).bind fun (n, k) =>
            if n = incomplete then
              (ctx'.save 0 (c :: rest) (rest.length + 1)).map fun ctx =>
                ({ ctx with savedLen := rest.length + 1 }, done' ++ [b'])
            else
              (b'.put (symbol table n)).bind fun b => recodeLoop extra table fuel ctx' done' b ((c :: rest).drop k) := by
  by_cases hfull : b.room - b.bytes.length < entityLen
  · refine ⟨(getBuffer extra ctx (rest.length + 1 + entityLen)).1, done ++ [b],
      (getBuffer extra ctx (rest.length + 1 + entityLen)).2, ?_, ?_, ⟨hctx.size, hctx.len, hctx.saved⟩, ?_⟩
    · simp [outBytes, getBuffer]
    · simp only [getBuffer, List.length_nil]
      omega
    · rw [recodeLoop]
      simp only [hfull, if_true]
  · refine ⟨ctx, done, b, rfl, ?_, hctx, ?_⟩
    · unfold entityLen at hfull ⊢
      omega
    · rw [recodeLoop]
      simp only [hfull, if_false]

-- The loop writes what the bytes are recoded to, and it keeps what is left of them.
theorem recodeLoop_scans {src o r : Bytes} (h : Scans table src o r) (fuel : Nat) (ctx : Ctx) (done : List Out) (b : Out)
    (hfuel : src.length < fuel) (hctx : Holds ctx []) :
    ∃ ctx' out, recodeLoop extra table fuel ctx done b src = some (ctx', out) ∧
      outBytes out = outBytes done ++ b.bytes ++ o ∧ Holds ctx' r := by
  induction h generalizing fuel ctx done b with
  | nil =>
      obtain ⟨fuel, rfl⟩ : ∃ f, fuel = f + 1 := ⟨fuel - 1, by omega⟩
      refine ⟨ctx, done ++ [b], rfl, ?_, hctx⟩
      simp [outBytes]
  | @ascii c s o r hc hs ih =>
      obtain ⟨fuel, rfl⟩ : ∃ f, fuel = f + 1 := ⟨fuel - 1, by omega⟩
      obtain ⟨ctx', done', b', hbytes, hroom, hholds, hturn⟩ := recodeLoop_turn extra fuel ctx done b c s hctx
      have hput := Out.put_fits b' [c] (by unfold entityLen at hroom; rw [List.length_singleton]; omega)
      obtain ⟨ctx'', out, hloop, hout, hleft⟩ := ih fuel ctx' done' { b' with bytes := b'.bytes ++ [c] }
        (by rw [List.length_cons] at hfuel; omega) hholds
      refine ⟨ctx'', out, ?_, ?_, hleft⟩
      · rw [hturn, if_pos hc, hput, Option.bind_some, hloop]
      · rw [hout, ← hbytes]
        simp
  | @cut c s hhigh hneed =>
      obtain ⟨fuel, rfl⟩ : ∃ f, fuel = f + 1 := ⟨fuel - 1, by omega⟩
      obtain ⟨ctx', done', b', hbytes, hroom, hholds, hturn⟩ := recodeLoop_turn extra fuel ctx done b c s hctx
      have hle := need_le c
      have hdecode := utf8Decode_short c s (s.length + 1) (by omega) (by omega)
      obtain ⟨kept, hsave, hkept⟩ := Ctx.save_holds ctx' (c :: s) hholds.size
        (by rw [List.length_cons]; unfold utfLen; omega)
      refine ⟨{ kept with savedLen := s.length + 1 }, done' ++ [b'], ?_, ?_, hkept⟩
      · rw [List.length_cons] at hsave
        rw [hturn, if_neg (UInt8.not_lt.mpr hhigh), hdecode, Option.bind_some]
        dsimp only
        rw [if_pos rfl, hsave]
        rfl
      · rw [List.append_nil, ← hbytes]
        simp [outBytes]
  | @symbol c s o r n k hhigh hneed hdecode hs ih =>
      obtain ⟨fuel, rfl⟩ : ∃ f, fuel = f + 1 := ⟨fuel - 1, by omega⟩
      obtain ⟨ctx', done', b', hbytes, hroom, hholds, hturn⟩ := recodeLoop_turn extra fuel ctx done b c s hctx
      obtain ⟨m, j, hdecode', hne, hpos, -, -⟩ := utf8Decode_append c s [] hneed
      rw [hdecode, Option.some.injEq, Prod.mk.injEq] at hdecode'
      obtain ⟨rfl, rfl⟩ := hdecode'
      have hput := Out.put_fits b' (symbol table n) (by have hle := (symbol_length table n).1; omega)
      have hshort : ((c :: s).drop k).length < fuel := by
        rw [List.length_cons] at hfuel
        rw [List.length_drop, List.length_cons]
        omega
      obtain ⟨ctx'', out, hloop, hout, hleft⟩ :=
        ih fuel ctx' done' { b' with bytes := b'.bytes ++ symbol table n } hshort hholds
      refine ⟨ctx'', out, ?_, ?_, hleft⟩
      · rw [hturn, if_neg (UInt8.not_lt.mpr hhigh), hdecode, Option.bind_some]
        dsimp only
        rw [if_neg hne, hput, Option.bind_some, hloop]
      · rw [hout, ← hbytes]
        simp

-- The same from the allocation of the buffer on
theorem recode_scans {src o r : Bytes} (h : Scans table src o r) (ctx : Ctx) (done : List Out) (size : Nat)
    (first : Bytes) (hctx : Holds ctx []) (hfirst : first.length ≤ entityLen) :
    ∃ ctx' out, recode extra table ctx done size first src = some (ctx', out) ∧
      outBytes out = outBytes done ++ first ++ o ∧ Holds ctx' r := by
  have hsize : entityLen ≤ entitySize size := by
    unfold entitySize
    split <;> omega
  have hput := Out.put_fits (getBuffer extra ctx (entitySize size)).2 first (by
    simp only [getBuffer, List.length_nil]
    omega)
  obtain ⟨ctx', out, hloop, hout, hleft⟩ := recodeLoop_scans extra h (src.length + 1)
    (getBuffer extra ctx (entitySize size)).1 done ⟨[] ++ first, (getBuffer extra ctx (entitySize size)).2.room⟩
    (by omega) ⟨hctx.size, hctx.len, hctx.saved⟩
  refine ⟨ctx', out, ?_, hout, hleft⟩
  rw [recode]
  dsimp only
  rw [hput, Option.bind_some]
  exact hloop

-- A buf that comes when nothing is held
theorem recodeFromUtf8_fresh {buf o r : Bytes} (h : Scans table buf o r) (ctx : Ctx) (hctx : Holds ctx []) :
    ∃ ctx' out, recodeFromUtf8 extra table ctx buf = some (ctx', out) ∧ outBytes out = o ∧ Holds ctx' r := by
  have hfront : ∀ (front src : Bytes), (∀ c ∈ front, c < 0x80) → ∀ o r, Scans table src o r →
      Scans table (front ++ src) (front ++ o) r := by
    intro front src hall o r hsrc
    induction front with
    | nil => exact hsrc
    | cons c front ih =>
        exact .ascii (hall c List.mem_cons_self) (ih (fun d hd => hall d (List.mem_cons_of_mem _ hd)))
  have hall : ∀ c ∈ buf.takeWhile (· < 0x80), c < 0x80 := by
    have hpassed := List.all_takeWhile (l := buf) (p := fun c => decide (c < 0x80))
    rw [List.all_eq_true] at hpassed
    exact fun c hc => of_decide_eq_true (hpassed c hc)
  have hsplit : buf.takeWhile (· < 0x80) ++ buf.dropWhile (· < 0x80) = buf := List.takeWhile_append_dropWhile
  have hhead := List.head?_dropWhile_not (fun c : UInt8 => decide (c < 0x80)) buf
  generalize buf.dropWhile (· < 0x80) = src at hsplit hhead
  have hdrop : buf.drop (buf.takeWhile (· < 0x80)).length = src := by
    have hrest := congrArg (List.drop (buf.takeWhile (· < 0x80)).length) hsplit
    rw [List.drop_left] at hrest
    exact hrest.symm
  obtain ⟨o', r', hsrc⟩ := scans_exists table src
  have hwhole := hfront _ _ hall _ _ hsrc
  rw [hsplit] at hwhole
  obtain ⟨ho, hr⟩ := h.unique hwhole
  have hlen : ctx.savedLen = 0 := hctx.len
  rw [recodeFromUtf8, if_pos hlen]
  dsimp only
  rw [hdrop]
  split
  · rename_i hnil
    subst hnil
    cases hsrc
    rw [List.append_nil] at hsplit ho
    refine ⟨ctx, _, rfl, ?_, ?_⟩
    · rw [ho, hsplit]
      simp [outBytes]
    · rw [hr]
      exact hctx
  · rename_i hne
    split
    · cases src with
      | nil => exact absurd rfl hne
      | cons c src =>
          have hhigh : 0x80 ≤ c := UInt8.not_lt.mp (by simpa using hhead)
          by_cases hneed : src.length < need c
          · have hle := need_le c
            have hdecode := utf8Decode_short c src (src.length + 1) (by omega) (by omega)
            obtain ⟨kept, hsave, hkept⟩ := Ctx.save_holds ctx (c :: src) hctx.size
              (by rw [List.length_cons]; unfold utfLen; omega)
            obtain ⟨rfl, rfl⟩ := hsrc.unique (.cut hhigh hneed)
            refine ⟨{ kept with savedLen := src.length + 1 },
              [⟨buf.takeWhile (· < 0x80), (buf.takeWhile (· < 0x80)).length⟩], ?_, ?_, by rw [hr]; exact hkept⟩
            · rw [List.length_cons] at hsave ⊢
              rw [hdecode, Option.bind_some]
              dsimp only
              rw [if_pos rfl, hsave]
              rfl
            · rw [ho, List.append_nil]
              simp [outBytes]
          · obtain ⟨n, k, hdecode, hcomplete, -, -, -⟩ := utf8Decode_append c src [] (by omega)
            obtain ⟨ctx', out, hrun, hout, hleft⟩ := recode_scans extra hsrc ctx
              [⟨buf.takeWhile (· < 0x80), (buf.takeWhile (· < 0x80)).length⟩] (c :: src).length [] hctx (by simp)
            refine ⟨ctx', out, ?_, ?_, by rw [hr]; exact hleft⟩
            · rw [List.length_cons] at hrun ⊢
              rw [hdecode, Option.bind_some]
              dsimp only
              rw [if_neg hcomplete]
              exact hrun
            · rw [hout, ho]
              simp [outBytes]
    · obtain ⟨ctx', out, hrun, hout, hleft⟩ := recode_scans extra h ctx [] buf.length [] hctx (by simp)
      exact ⟨ctx', out, hrun, by simpa [outBytes] using hout, hleft⟩

end Nginx.CharsetFilter
