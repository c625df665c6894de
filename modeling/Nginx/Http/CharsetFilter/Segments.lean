import Nginx.Http.CharsetFilter.Stream

namespace Nginx.CharsetFilter

-- The bytes at the end that begin a character and do not end it
def unfinishedFrom : Nat → Bytes → Bytes
  | 0, s => s
  | _ + 1, [] => []
  | fuel + 1, c :: s =>
      if c < 0x80 then unfinishedFrom fuel s
      else if s.length < need c then c :: s
      else unfinishedFrom fuel ((c :: s).drop (((utf8Decode (c :: s) (s.length + 1)).map Prod.snd).getD 1))

def unfinished (s : Bytes) : Bytes := unfinishedFrom s.length s

-- All bytes but the first and the last can stand in a character.
def Clean (held : Bytes) : Prop := ∀ b ∈ held.tail.dropLast, 0x80 ≤ b

instance (held : Bytes) : Decidable (Clean held) := inferInstanceAs (Decidable (∀ b ∈ _, _))

-- What is held of a stream after a buf that is cut well, when some bytes of a character are held before it
def next : Bytes → Bytes → Option Bytes
  | [], buf => some (unfinished buf)
  | c :: t, buf =>
      if (c :: t).length + buf.length ≤ need c + 1 then
        if t = [] then some (c :: buf) else none
      else if Clean (c :: t) then some (unfinished (c :: t ++ buf))
      else none

-- No complete character is held.
def Waiting : Bytes → Prop
  | [] => True
  | c :: t => t.length < need c

instance (held : Bytes) : Decidable (Waiting held) :=
  match held with
  | [] => inferInstanceAs (Decidable True)
  | c :: t => inferInstanceAs (Decidable (t.length < need c))

def Cut : Bytes → List Bytes → Prop
  | held, [] => Waiting held
  | held, buf :: bufs => ∃ held', next held buf = some held' ∧ Cut held' bufs

variable {table : Table}

theorem unfinishedFrom_eq {s o r : Bytes} (h : Scans table s o r) (fuel : Nat) (hfuel : s.length ≤ fuel) :
    unfinishedFrom fuel s = r := by
  induction h generalizing fuel with
  | nil => cases fuel <;> rfl
  | @ascii c s o r hc hs ih =>
      obtain ⟨fuel, rfl⟩ : ∃ f, fuel = f + 1 := ⟨fuel - 1, by rw [List.length_cons] at hfuel; omega⟩
      rw [unfinishedFrom, if_pos hc]
      exact ih fuel (by rw [List.length_cons] at hfuel; omega)
  | @cut c s hhigh hneed =>
      obtain ⟨fuel, rfl⟩ : ∃ f, fuel = f + 1 := ⟨fuel - 1, by rw [List.length_cons] at hfuel; omega⟩
      rw [unfinishedFrom, if_neg (UInt8.not_lt.mpr hhigh), if_pos hneed]
  | @symbol c s o r n k hhigh hneed hdecode hs ih =>
      obtain ⟨fuel, rfl⟩ : ∃ f, fuel = f + 1 := ⟨fuel - 1, by rw [List.length_cons] at hfuel; omega⟩
      obtain ⟨m, j, hdecode', -, hpos, -, -⟩ := utf8Decode_append c s [] hneed
      rw [hdecode, Option.some.injEq, Prod.mk.injEq] at hdecode'
      obtain ⟨rfl, rfl⟩ := hdecode'
      rw [unfinishedFrom, if_neg (UInt8.not_lt.mpr hhigh), if_neg (Nat.not_lt.mpr hneed), hdecode]
      apply ih fuel
      show ((c :: s).drop k).length ≤ fuel
      rw [List.length_cons] at hfuel
      rw [List.length_drop, List.length_cons]
      omega

theorem Scans.unfinished_eq {s o r : Bytes} (h : Scans table s o r) : unfinished s = r :=
  unfinishedFrom_eq h s.length (Nat.le_refl _)

-- The loop that completes ctx->saved
theorem fill_eq (left i : Nat) (saved buf : Bytes) (hsize : saved.length = i + left) (hne : buf ≠ []) :
    fill left i saved buf = some (saved.take i ++ buf.take left ++ saved.drop (i + buf.length),
      if buf.length ≤ left then i + buf.length - 1 else i + left) := by
  induction left generalizing i saved buf with
  | zero =>
      have hpos := List.length_pos_iff.mpr hne
      have htake : saved.take i = saved := List.take_of_length_le (by omega)
      have hdrop : saved.drop (i + buf.length) = [] := List.drop_eq_nil_of_le (by omega)
      rw [fill, htake, hdrop, if_neg (by omega)]
      simp
  | succ left ih =>
      cases buf with
      | nil => exact absurd rfl hne
      | cons c p =>
          have hsplit : saved = saved.take i ++ saved.drop i := (List.take_append_drop i saved).symm
          have htake : (saved.take i).length = i := List.length_take_of_le (by omega)
          obtain ⟨old, rest, hrest⟩ : ∃ old rest, saved.drop i = old :: rest := by
            cases hdrop : saved.drop i with
            | nil =>
                have hlen := congrArg List.length hdrop
                rw [List.length_drop, List.length_nil] at hlen
                omega
            | cons old rest => exact ⟨old, rest, rfl⟩
          have hset : saved.set i c = saved.take i ++ c :: rest := by
            rw [List.set_eq_take_append_cons_drop, if_pos (by omega), ← List.drop_drop, hrest]
            rfl
          have hone : (saved.set i c).take (i + 1) = saved.take i ++ [c] := by
            rw [hset, List.take_append, htake, List.take_of_length_le (by omega), Nat.add_sub_cancel_left]
            rfl
          have hmore : ∀ n, (saved.set i c).drop (i + 1 + n) = saved.drop (i + 1 + n) := by
            intro n
            rw [List.drop_set_of_lt (by omega)]
          cases p with
          | nil =>
              rw [fill, List.length_singleton, if_pos (by omega), Nat.add_sub_cancel]
              congr 2
              have hlast := hmore 0
              rw [Nat.add_zero] at hlast
              have hall : [c].take (left + 1) = [c] := List.take_of_length_le (by simp)
              rw [← List.take_append_drop (i + 1) (saved.set i c), hone, hlast, hall]
          | cons d q =>
              have hrec := ih (i + 1) (saved.set i c) (d :: q) (by rw [List.length_set]; omega) (by simp)
              have hidx : i + 1 + (d :: q).length = i + (c :: d :: q).length := by
                simp only [List.length_cons]
                omega
              rw [fill, hrec, hone, hmore, hidx]
              · refine congrArg some (Prod.ext ?_ ?_)
                · dsimp only
                  rw [List.take_succ_cons, List.append_assoc (saved.take i)]
                  rfl
                · dsimp only
                  simp only [List.length_cons]
                  split <;> split <;> omega
              · simp

-- What may be held: nothing, a part of a character, or a whole one that is still to be written
def Kept (held : Bytes) : Prop := held = [] ∨ ∃ c t, held = c :: t ∧ 0x80 ≤ c ∧ t.length ≤ need c

theorem Scans.kept {s o r : Bytes} (h : Scans table s o r) : Kept r := by
  rcases h.left with hnil | ⟨c, t, hr, hhigh, hneed⟩
  · exact Or.inl hnil
  · exact Or.inr ⟨c, t, hr, hhigh, Nat.le_of_lt hneed⟩

variable (extra : Nat → Nat)

-- A buf that does not end the character
theorem recode_short (table : Table) {c : UInt8} {t buf : Bytes} (ctx : Ctx) (hholds : Holds ctx (c :: t)) (hbuf : buf ≠ [])
    (hshort : (c :: t).length + buf.length ≤ need c + 1) :
    if t = [] then
      ∃ ctx', recodeFromUtf8 extra table ctx buf = some (ctx', [⟨[], 0⟩]) ∧ Holds ctx' (c :: buf)
    else recodeFromUtf8 extra table ctx buf = none := by
  have hpos := List.length_pos_iff.mpr hbuf
  have hle := need_le c
  have hlen : ctx.savedLen = t.length + 1 := hholds.len
  have hsize := hholds.size
  have htake := hholds.saved
  rw [List.length_cons] at hshort htake
  have hfill := fill_eq (utfLen - ctx.savedLen) ctx.savedLen ctx.saved buf (by unfold utfLen at hsize ⊢; omega) hbuf
  rw [if_pos (by unfold utfLen; omega), hlen, htake, List.take_of_length_le (by unfold utfLen; omega)] at hfill
  have hdecode := utf8Decode_short c (t ++ buf ++ ctx.saved.drop (t.length + 1 + buf.length))
    (t.length + 1 + buf.length - 1) (by omega) (by omega)
  have htext : c :: t ++ buf ++ ctx.saved.drop (t.length + 1 + buf.length) =
      c :: (t ++ buf ++ ctx.saved.drop (t.length + 1 + buf.length)) := by simp
  rw [htext] at hfill
  have hrun : recodeFromUtf8 extra table ctx buf =
      (Ctx.save ⟨c :: (t ++ buf ++ ctx.saved.drop (t.length + 1 + buf.length)), t.length + 1, ctx.buffers⟩ (t.length + 1) buf
        (t.length + 1 + buf.length - 1)).map
        fun ctx => ({ ctx with savedLen := ctx.savedLen + (t.length + 1 + buf.length - 1) }, [⟨[], 0⟩]) := by
    rw [recodeFromUtf8, if_neg (by omega), hlen, hfill, Option.bind_some]
    dsimp only
    rw [hdecode, Option.bind_some]
    dsimp only
    rw [if_pos ⟨rfl, by unfold utfLen; omega⟩]
  rw [hrun]
  split
  · rename_i hnil
    subst hnil
    have hsave := Ctx.save_all ⟨c :: ([] ++ buf ++ ctx.saved.drop (0 + 1 + buf.length)), 0 + 1, ctx.buffers⟩ 1 buf
      (0 + 1 + buf.length - 1) (by unfold utfLen; omega) (by omega)
    rw [List.length_nil]
    rw [show (0 : Nat) + 1 = 1 from rfl] at hsave ⊢
    rw [hsave]
    have hcount : 1 + buf.length - 1 = buf.length := by omega
    refine ⟨_, rfl, ?_, ?_, ?_⟩
    · simp only [hcount, List.length_append, List.length_take, List.length_drop, List.length_cons, List.nil_append]
      unfold utfLen at hsize ⊢
      omega
    · dsimp only
      rw [List.length_cons]
      omega
    · dsimp only
      rw [hcount, List.take_length, List.take_succ_cons, List.take_zero, List.length_cons, List.append_assoc,
        List.cons_append, List.nil_append, List.take_succ_cons, List.take_left]
  · rename_i hne
    have hpos' := List.length_pos_iff.mpr hne
    rw [Ctx.save, if_neg (by omega)]
    rfl

-- A buf that goes beyond the character
theorem recode_beyond {c : UInt8} {t buf o r : Bytes} (ctx : Ctx) (hholds : Holds ctx (c :: t)) (hhigh : 0x80 ≤ c)
    (hkept : t.length ≤ need c) (hbeyond : need c + 1 < (c :: t).length + buf.length)
    (h : Scans table (c :: t ++ buf) o r) :
    if Clean (c :: t) then
      ∃ ctx' out, recodeFromUtf8 extra table ctx buf = some (ctx', out) ∧ outBytes out = o ∧ Holds ctx' r
    else recodeFromUtf8 extra table ctx buf = none := by
  have hle := need_le c
  have hlen : ctx.savedLen = t.length + 1 := hholds.len
  have hsize := hholds.size
  have htake := hholds.saved
  rw [List.length_cons] at hbeyond htake
  have hbuf : buf ≠ [] := by
    intro hnil
    rw [hnil, List.length_nil] at hbeyond
    omega
  have hfill := fill_eq (utfLen - ctx.savedLen) ctx.savedLen ctx.saved buf (by unfold utfLen at hsize ⊢; omega) hbuf
  rw [hlen, htake] at hfill
  -- The window is in ctx->saved, and it is in what is held with the buf behind it.
  have hwindow : ((t ++ buf).take (need c)).length = need c := by
    apply List.length_take_of_le
    rw [List.length_append]
    omega
  obtain ⟨n, k, hdecode, hcomplete, hpos, hkle, hlow⟩ := utf8Decode_window c _ hwindow
  have hfront : (t ++ buf).take (need c) = (t ++ buf.take (utfLen - (t.length + 1))).take (need c) := by
    rw [List.take_append, List.take_append, List.take_take]
    congr 2
    unfold utfLen
    omega
  have hsaved : c :: t ++ buf.take (utfLen - (t.length + 1)) ++ ctx.saved.drop (t.length + 1 + buf.length) =
      c :: (t ++ buf).take (need c) ++ ((t ++ buf.take (utfLen - (t.length + 1))).drop (need c) ++
        ctx.saved.drop (t.length + 1 + buf.length)) := by
    rw [hfront, List.cons_append, List.cons_append, List.cons_append, ← List.append_assoc, List.take_append_drop]
  have hcount : need c ≤ (if buf.length ≤ utfLen - (t.length + 1) then t.length + 1 + buf.length - 1
      else t.length + 1 + (utfLen - (t.length + 1))) - 1 := by
    unfold utfLen
    split <;> omega
  have hone := hdecode ((t ++ buf.take (utfLen - (t.length + 1))).drop (need c) ++
    ctx.saved.drop (t.length + 1 + buf.length)) _ hcount
  rw [← hsaved] at hone
  have htwo := hdecode ((t ++ buf).drop (need c)) ((t ++ buf).length + 1) (by rw [List.length_append]; omega)
  rw [List.cons_append, List.take_append_drop] at htwo
  have hclean : t.length + 1 ≤ k ↔ Clean (c :: t) := by
    rw [hlow (t.length + 1) (by omega) (by omega), Clean, List.tail_cons, List.dropLast_eq_take]
    have hindex : t.length + 1 - 2 = t.length - 1 := by omega
    rw [hindex, List.take_take, Nat.min_eq_left (by omega), List.take_append_of_le_length (by omega)]
  have hrun : recodeFromUtf8 extra table ctx buf =
      if k < t.length + 1 then none
      else recode extra table
        { ctx with
          saved := c :: t ++ buf.take (utfLen - (t.length + 1)) ++ ctx.saved.drop (t.length + 1 + buf.length)
          savedLen := 0 } [] buf.length (symbol table n) (buf.drop (k - (t.length + 1))) := by
    rw [recodeFromUtf8, if_neg (by omega), hlen, hfill, Option.bind_some]
    dsimp only
    rw [hone, Option.bind_some]
    dsimp only
    rw [if_neg (fun h => hcomplete h.1), if_neg hcomplete]
  rw [hrun]
  split
  · rename_i hgood
    have hk := hclean.mpr hgood
    rw [if_neg (by omega)]
    have hdrop : (c :: (t ++ buf)).drop k = buf.drop (k - (t.length + 1)) := by
      rw [← List.cons_append, List.drop_append, List.drop_eq_nil_of_le (by rw [List.length_cons]; exact hk),
        List.length_cons]
      rfl
    have hscan : ∃ o', Scans table (buf.drop (k - (t.length + 1))) o' r ∧ o = symbol table n ++ o' := by
      rw [List.cons_append] at h
      cases h with
      | ascii hc hs => exact absurd hc (UInt8.not_lt.mpr hhigh)
      | cut hhigh' hneed =>
          rw [List.length_append] at hneed
          omega
      | @symbol _ _ o' _ n' k' hhigh' hneed hdecode' hs =>
          rw [htwo, Option.some.injEq, Prod.mk.injEq] at hdecode'
          obtain ⟨rfl, rfl⟩ := hdecode'
          rw [hdrop] at hs
          exact ⟨o', hs, rfl⟩
    obtain ⟨o', hs, rfl⟩ := hscan
    have hholds' : Holds
        { ctx with
          saved := c :: t ++ buf.take (utfLen - (t.length + 1)) ++ ctx.saved.drop (t.length + 1 + buf.length)
          savedLen := 0 } [] := by
      refine ⟨?_, rfl, rfl⟩
      simp only [List.length_append, List.length_cons, List.length_take, List.length_drop]
      unfold utfLen at hsize ⊢
      omega
    obtain ⟨ctx', out, hrecode, hout, hleft⟩ := recode_scans extra hs _ [] buf.length (symbol table n) hholds'
      (symbol_length table n).1
    exact ⟨ctx', out, hrecode, by rw [hout]; rfl, hleft⟩
  · rename_i hbad
    rw [if_pos (by
      by_contra hge
      exact hbad (hclean.mp (by omega)))]

-- One buf: what is held and written behind it
theorem recodeFromUtf8_next (table : Table) {held buf : Bytes} (ctx : Ctx) (hholds : Holds ctx held) (hkept : Kept held)
    (hbuf : buf ≠ []) :
    match next held buf with
    | none => recodeFromUtf8 extra table ctx buf = none
    | some held' => ∃ ctx' out, recodeFromUtf8 extra table ctx buf = some (ctx', out) ∧ Holds ctx' held' ∧
        Kept held' ∧ ∀ y o r, Scans table (held' ++ y) o r → Scans table (held ++ buf ++ y) (outBytes out ++ o) r := by
  rcases hkept with rfl | ⟨c, t, rfl, hhigh, hle⟩
  · obtain ⟨o, r, hscan⟩ := scans_exists table buf
    obtain ⟨ctx', out, hrun, hout, hleft⟩ := recodeFromUtf8_fresh extra hscan ctx hholds
    rw [next, hscan.unfinished_eq]
    refine ⟨ctx', out, hrun, hleft, hscan.kept, ?_⟩
    intro y o' r' hrest
    rw [hout]
    exact hscan.append hrest
  · rw [next]
    by_cases hshort : (c :: t).length + buf.length ≤ need c + 1
    · have hrun := recode_short extra table ctx hholds hbuf hshort
      rw [if_pos hshort]
      by_cases hnil : t = []
      · rw [if_pos hnil] at hrun ⊢
        obtain ⟨ctx', hrecode, hleft⟩ := hrun
        rw [hnil, List.length_singleton] at hshort
        refine ⟨ctx', _, hrecode, hleft, Or.inr ⟨c, buf, rfl, hhigh, by omega⟩, ?_⟩
        intro y o r hrest
        rw [hnil]
        exact hrest
      · rw [if_neg hnil] at hrun ⊢
        exact hrun
    · obtain ⟨o, r, hscan⟩ := scans_exists table (c :: t ++ buf)
      have hrun := recode_beyond extra ctx hholds hhigh hle (by omega) hscan
      rw [if_neg hshort]
      by_cases hclean : Clean (c :: t)
      · rw [if_pos hclean] at hrun ⊢
        obtain ⟨ctx', out, hrecode, hout, hleft⟩ := hrun
        rw [hscan.unfinished_eq]
        refine ⟨ctx', out, hrecode, hleft, hscan.kept, ?_⟩
        intro y o' r' hrest
        rw [hout]
        exact hscan.append hrest
      · rw [if_neg hclean] at hrun ⊢
        exact hrun

end Nginx.CharsetFilter
