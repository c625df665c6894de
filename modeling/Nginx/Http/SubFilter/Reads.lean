import Nginx.Http.SubFilter

namespace Nginx.SubFilter

-- The bytes as they are compared
def low (x : List (UInt8 × Bool)) : Bytes := x.map fun b => tolower b.1

-- An attempt that has read w fails at a byte of the same buffer, before it is complete.
inductive Kept (pat : Bytes) : Bytes → List (UInt8 × Bool) → Prop
  | fails {w : Bytes} {c : UInt8} {x : List (UInt8 × Bool)} : ¬w ++ [tolower c] <+: pat → Kept pat w ((c, false) :: x)
  | goes {w : Bytes} {c : UInt8} {x : List (UInt8 × Bool)} : w ++ [tolower c] <+: pat → w ++ [tolower c] ≠ pat →
      Kept pat (w ++ [tolower c]) x → Kept pat w ((c, false) :: x)

-- The body falls into bytes that begin no attempt, occurrences, and failed attempts that no occurrence begins in.
-- Where the byte at which an attempt fails is the first one of its buffer and begins another, that one is Kept.
inductive Reads (pat : Bytes) (once : Bool) : List (UInt8 × Bool) → Prop
  | nil : Reads pat once []
  | plain {b : UInt8 × Bool} {x : List (UInt8 × Bool)} : ¬[tolower b.1] <+: pat → Reads pat once x → Reads pat once (b :: x)
  | found {w x : List (UInt8 × Bool)} : 2 ≤ pat.length → low w = pat → (once = false → Reads pat once x) →
      Reads pat once (w ++ x)
  | failed {w x : List (UInt8 × Bool)} {d : UInt8 × Bool} : w ≠ [] → low w <+: pat → ¬low w ++ [tolower d.1] <+: pat →
      (∀ t, t <:+ w → t ≠ [] → ¬pat <+: low (t ++ d :: x)) →
      (d.2 = true → [tolower d.1] <+: pat → Kept pat [tolower d.1] x) →
      Reads pat once (d :: x) → Reads pat once (w ++ d :: x)

-- The body with none in place of the occurrences that are replaced
def target (pat : Bytes) (once : Bool) : Nat → Bytes → List (Option UInt8)
  | _, [] => []
  | 0, c :: x =>
      if pat <+: (c :: x).map tolower then
        none :: if once then (x.drop (pat.length - 1)).map some else target pat once (pat.length - 1) x
      else some c :: target pat once 0 x
  | skip + 1, _ :: x => target pat once skip x

theorem fill_some (sub : Bytes) (x : Bytes) : fill sub (x.map some) = x := by
  simp [fill, List.flatMap_map]

@[simp] theorem fill_none_cons (sub : Bytes) (h : List (Option UInt8)) : fill sub (none :: h) = sub ++ fill sub h := rfl

@[simp] theorem fill_some_cons (sub : Bytes) (c : UInt8) (h : List (Option UInt8)) : fill sub (some c :: h) = c :: fill sub h := rfl

theorem fill_append (sub : Bytes) (a b : List (Option UInt8)) : fill sub (a ++ b) = fill sub a ++ fill sub b :=
  List.flatMap_append

theorem substitute_eq_fill (pat sub : Bytes) (once : Bool) (skip : Nat) (x : Bytes) :
    substitute pat sub once skip x = fill sub (target pat once skip x) := by
  induction x generalizing skip with
  | nil => cases skip <;> rfl
  | cons c x ih =>
      cases skip with
      | succ skip => exact ih skip
      | zero =>
          rw [substitute, target]
          by_cases hpat : pat <+: (c :: x).map tolower
          · rw [if_pos hpat, if_pos hpat, fill_none_cons]
            cases once with
            | true => rw [if_pos rfl, if_pos rfl, fill_some]
            | false => rw [if_neg Bool.false_ne_true, if_neg Bool.false_ne_true, ih]
          · rw [if_neg hpat, if_neg hpat, ih]
            rfl

-- Outputs that agree for every replacement agree.
theorem fill_inj {a b : List (Option UInt8)} (h : ∀ sub, fill sub a = fill sub b) : a = b := by
  have hnil : ∀ c (x : List (Option UInt8)), fill [0] (c :: x) ≠ [] := fun c x => by cases c <;> simp
  have hopen : ∀ c (x y : List (Option UInt8)), fill [c + 1] (some c :: x) ≠ fill [c + 1] (none :: y) := fun c x y => by
    simp
  induction a generalizing b with
  | nil =>
      cases b with
      | nil => rfl
      | cons d b => exact absurd (h [0]).symm (hnil d b)
  | cons c a ih =>
      cases b with
      | nil => exact absurd (h [0]) (hnil c a)
      | cons d b =>
          have hhead : c = d := by
            cases c with
            | none =>
                cases d with
                | none => rfl
                | some d => exact absurd (h [d + 1]).symm (hopen d b a)
            | some c =>
                cases d with
                | none => exact absurd (h [c + 1]) (hopen c a b)
                | some d =>
                    have h0 := h []
                    rw [fill_some_cons, fill_some_cons, List.cons.injEq] at h0
                    rw [h0.1]
          subst hhead
          congr 1
          apply ih
          intro sub
          cases c with
          | none => exact List.append_cancel_left (h sub)
          | some c => exact (List.cons.inj (h sub)).2

theorem target_skip (pat : Bytes) (once : Bool) (skip : Nat) (x : Bytes) :
    target pat once skip x = target pat once 0 (x.drop skip) := by
  induction skip generalizing x with
  | zero => rfl
  | succ skip ih =>
      cases x with
      | nil => simp [target]
      | cons c x => exact ih x

section

variable {pat : Bytes} {once : Bool}

theorem low_append (x y : List (UInt8 × Bool)) : low (x ++ y) = low x ++ low y := List.map_append

theorem low_fst (x : List (UInt8 × Bool)) : (x.map Prod.fst).map tolower = low x := by simp [low]

theorem target_found {w x : List (UInt8 × Bool)} (hpat : pat ≠ []) (hw : low w = pat) :
    target pat once 0 ((w ++ x).map Prod.fst) =
      none :: if once then x.map fun b => some b.1 else target pat once 0 (x.map Prod.fst) := by
  have hlen : w.length = pat.length := by simp [← hw, low]
  cases w with
  | nil => exact absurd hw.symm hpat
  | cons b w =>
      have hprefix : pat <+: (((b :: w) ++ x).map Prod.fst).map tolower := by
        rw [low_fst, low_append, hw]
        exact List.prefix_append _ _
      have hdrop : ((w ++ x).map Prod.fst).drop (pat.length - 1) = x.map Prod.fst := by
        rw [← List.map_drop, ← hlen]
        simp
      rw [List.cons_append, List.map_cons] at hprefix ⊢
      rw [target, if_pos hprefix, target_skip, hdrop, List.map_map]
      rfl

theorem target_some {b : UInt8 × Bool} {x : List (UInt8 × Bool)} (h : ¬pat <+: low (b :: x)) :
    target pat once 0 ((b :: x).map Prod.fst) = some b.1 :: target pat once 0 (x.map Prod.fst) := by
  rw [← low_fst, List.map_cons] at h
  rw [List.map_cons, target, if_neg h]

theorem target_none {b : UInt8 × Bool} {x : List (UInt8 × Bool)} (h : pat <+: low (b :: x)) :
    ∃ y, target pat once 0 ((b :: x).map Prod.fst) = none :: y := by
  rw [← low_fst, List.map_cons] at h
  rw [List.map_cons, target, if_pos h]
  exact ⟨_, rfl⟩

-- No occurrence begins in w when its bytes are passed.
theorem target_passes {w y : List (UInt8 × Bool)} {z : List (Option UInt8)} :
    target pat once 0 ((w ++ y).map Prod.fst) = w.map (fun b => some b.1) ++ z ↔
      (∀ t, t <:+ w → t ≠ [] → ¬pat <+: low (t ++ y)) ∧ target pat once 0 (y.map Prod.fst) = z := by
  induction w with
  | nil => simp
  | cons b w ih =>
      have hsuffix : (∀ t, t <:+ b :: w → t ≠ [] → ¬pat <+: low (t ++ y)) ↔
          ¬pat <+: low (b :: (w ++ y)) ∧ ∀ t, t <:+ w → t ≠ [] → ¬pat <+: low (t ++ y) := by
        simp only [List.suffix_cons_iff, forall_eq_or_imp]
        simp
      rw [hsuffix, List.cons_append]
      by_cases hpat : pat <+: low (b :: (w ++ y))
      · obtain ⟨rest, hnone⟩ := target_none hpat
        rw [hnone]
        simp [hpat]
      · rw [target_some hpat]
        simp only [List.map_cons, List.cons_append, List.cons.injEq, true_and, ih, hpat, not_false_eq_true]

theorem occurrence_split {x : List (UInt8 × Bool)} (h : pat <+: low x) : ∃ w y, x = w ++ y ∧ low w = pat := by
  refine ⟨x.take pat.length, x.drop pat.length, (List.take_append_drop _ _).symm, ?_⟩
  rw [low, List.map_take]
  exact (List.prefix_iff_eq_take.mp h).symm

theorem target_length (hpat : pat ≠ []) (x : List (UInt8 × Bool)) :
    (fill pat (target pat once 0 (x.map Prod.fst))).length = x.length := by
  induction hn : x.length using Nat.strongRecOn generalizing x with
  | ind n ih =>
      subst hn
      cases x with
      | nil => rfl
      | cons b x =>
          by_cases hocc : pat <+: low (b :: x)
          · obtain ⟨w, y, hx, hw⟩ := occurrence_split hocc
            have hlen : w.length = pat.length := by simp [← hw, low]
            have hpos := List.length_pos_iff.mpr hpat
            have hsize : (b :: x).length = pat.length + y.length := by rw [hx, List.length_append, hlen]
            rw [hx, target_found hpat hw, fill_none_cons, List.length_append, ← hx, hsize, Nat.add_left_cancel_iff]
            cases once with
            | true =>
                have hmap : (y.map fun b => some b.1) = (y.map Prod.fst).map some := by simp
                rw [if_pos rfl, hmap, fill_some, List.length_map]
            | false => exact ih _ (by omega) y rfl
          · rw [target_some hocc]
            simp [ih _ (Nat.lt_succ_self _) x rfl]

end

-- The match string as the filter reads it
def Spells (m : Match) (pat : Bytes) : Prop := m.len = pat.length ∧ ∀ i c, pat[i]? = some c → m.data i = c

section

variable {m : Match} {pat : Bytes} {once : Bool}

theorem matchOf_spells (value : Bytes) (behind : Nat → UInt8) : Spells (matchOf value behind) (value.map tolower) :=
  ⟨by simp [matchOf], fun i c h => by simp only [matchOf, h, Option.getD_some]⟩

theorem continues_iff (hm : Spells m pat) {w : Bytes} (hw : w.map tolower <+: pat) (hlt : w.length < pat.length) (c : UInt8) :
    w.map tolower ++ [tolower c] <+: pat ↔ tolower c = m.data w.length := by
  obtain ⟨t, rfl⟩ := hw
  rw [List.prefix_append_right_inj]
  cases t with
  | nil => simp at hlt
  | cons d t =>
      have hd : m.data w.length = d := hm.2 _ _ (by simp)
      rw [hd, List.cons_prefix_cons]
      simp

theorem begins_iff (hm : Spells m pat) (hpat : pat ≠ []) (c : UInt8) : [tolower c] <+: pat ↔ tolower c = m.data 0 :=
  continues_iff hm (w := []) List.nil_prefix (List.length_pos_iff.mpr hpat) c

theorem run_begins (hm : Spells m pat) (hpat : pat ≠ []) {b : UInt8 × Bool} (h : [tolower b.1] <+: pat)
    (x : List (UInt8 × Bool)) : run m once .idle (b :: x) = run m once (.trying [] [b.1]) x := by
  rw [run, if_pos ((begins_iff hm hpat b.1).mp h)]

theorem run_plain (hm : Spells m pat) (hpat : pat ≠ []) {b : UInt8 × Bool} (h : ¬[tolower b.1] <+: pat)
    (x : List (UInt8 × Bool)) : run m once .idle (b :: x) = some b.1 :: run m once .idle x := by
  rw [run, if_neg (fun hb => h ((begins_iff hm hpat b.1).mpr hb))]

theorem run_goes (hm : Spells m pat) {old w : Bytes} {b : UInt8 × Bool} (h : w.map tolower ++ [tolower b.1] <+: pat)
    (hlt : w.length + 1 < pat.length) (x : List (UInt8 × Bool)) :
    run m once (.trying old w) (b :: x) = run m once (.trying (if b.2 then [] else old) (w ++ [b.1])) x := by
  have hw := (List.prefix_append _ _).trans h
  exact run_next once ((continues_iff hm hw (by omega) b.1).mp h) (by rw [hm.1]; omega) b.2 x

theorem run_advance (hm : Spells m pat) {w : Bytes} {u : List (UInt8 × Bool)} (h : w.map tolower ++ low u <+: pat)
    (hlt : w.length + u.length < pat.length) (x : List (UInt8 × Bool)) :
    run m once (.trying [] w) (u ++ x) = run m once (.trying [] (w ++ u.map Prod.fst)) x := by
  induction u generalizing w with
  | nil => simp
  | cons b u ih =>
      have hcat : w.map tolower ++ low (b :: u) = (w ++ [b.1]).map tolower ++ low u := by simp [low]
      rw [hcat] at h
      rw [List.length_cons] at hlt
      have hone : w.map tolower ++ [tolower b.1] <+: pat := by
        have hpre := (List.prefix_append _ _).trans h
        rwa [List.map_append] at hpre
      rw [List.cons_append, run_goes hm hone (by omega), ite_self, ih h (by simp; omega)]
      simp

-- The attempt that w is the beginning of
theorem run_attempt (hm : Spells m pat) {w : List (UInt8 × Bool)} (hne : w ≠ []) (hw : low w <+: pat)
    (hlt : w.length < pat.length) (x : List (UInt8 × Bool)) :
    run m once .idle (w ++ x) = run m once (.trying [] (w.map Prod.fst)) x := by
  cases w with
  | nil => exact absurd rfl hne
  | cons b w =>
      have hpat : pat ≠ [] := by
        intro h
        simp [h] at hlt
      have hb : [tolower b.1] <+: pat := (List.prefix_append [tolower b.1] (low w)).trans hw
      rw [List.cons_append, run_begins hm hpat hb]
      exact run_advance hm (w := [b.1]) hw (by simpa [Nat.add_comm] using hlt) x

theorem run_found (hm : Spells m pat) {w : List (UInt8 × Bool)} (hlen : 2 ≤ pat.length) (hw : low w = pat)
    (x : List (UInt8 × Bool)) : run m once .idle (w ++ x) = none :: after m once x := by
  have hwlen : w.length = pat.length := by simp [← hw, low]
  obtain ⟨u, b, rfl⟩ : ∃ u b, w = u ++ [b] := by
    refine ⟨w.dropLast, w.getLast (by rintro rfl; simp at hwlen; omega), ?_⟩
    exact (List.dropLast_append_getLast _).symm
  rw [List.length_append, List.length_singleton] at hwlen
  have hu : low u <+: pat := ⟨[tolower b.1], by rw [← hw, low_append]; rfl⟩
  have hb : low u ++ [tolower b.1] <+: pat := by
    rw [← hw, low_append]
    exact List.prefix_refl _
  have hu' : u ≠ [] := by
    rintro rfl
    simp at hwlen
    omega
  rw [← low_fst] at hu hb
  rw [List.append_assoc, run_attempt hm hu' (low_fst u ▸ hu) (by omega), List.singleton_append]
  exact run_done once ((continues_iff hm hu (by simp; omega) b.1).mp hb) (by rw [hm.1]; simpa using hwlen) b.2 x

theorem run_kept (hm : Spells m pat) {old w : Bytes} {x : List (UInt8 × Bool)} (h : Kept pat (w.map tolower) x)
    (hw : w.map tolower <+: pat) (hlt : w.length < pat.length) :
    run m once (.trying old w) x = old.map some ++ run m once (.trying [] w) x := by
  generalize hv : w.map tolower = v at h
  induction h generalizing w with
  | fails hc =>
      subst hv
      rename_i c x
      have hne := fun hc' => hc ((continues_iff hm hw hlt c).mpr hc')
      by_cases hfirst : tolower c = m.data 0
      · simp [run_again once hne hfirst]
      · simp [run_fail once hne hfirst]
  | goes hc hpat h ih =>
      subst hv
      rename_i c x
      have hlt' : w.length + 1 < pat.length := by
        have hle := hc.length_le
        have hne : w.length + 1 ≠ pat.length := fun he => hpat (hc.eq_of_length (by simpa using he))
        simp at hle
        omega
      rw [run_goes hm (b := (c, false)) hc hlt', run_goes hm (b := (c, false)) hc hlt']
      exact ih (by simpa using hc) (by simpa using hlt') (by simp)

theorem run_passes (hm : Spells m pat) {w : Bytes} {d : UInt8 × Bool} {x : List (UInt8 × Bool)}
    (hw : w.map tolower <+: pat) (hlt : w.length < pat.length) (hd : ¬w.map tolower ++ [tolower d.1] <+: pat)
    (hkept : d.2 = true → [tolower d.1] <+: pat → Kept pat [tolower d.1] x) :
    run m once (.trying [] w) (d :: x) = w.map some ++ run m once .idle (d :: x) := by
  obtain ⟨c, first⟩ := d
  have hpat : pat ≠ [] := by
    intro h
    simp [h] at hlt
  have hne := fun hc => hd ((continues_iff hm hw hlt c).mpr hc)
  by_cases hbegins : [tolower c] <+: pat
  · rw [run_begins hm hpat hbegins, run_again once hne ((begins_iff hm hpat c).mp hbegins)]
    cases first with
    | false => rfl
    | true =>
        have hpos : 0 < w.length := by
          apply List.length_pos_iff.mpr
          rintro rfl
          exact hd hbegins
        exact run_kept hm (w := [c]) (hkept rfl hbegins) hbegins (by simp; omega)
  · have hfirst := fun hc => hbegins ((begins_iff hm hpat c).mpr hc)
    rw [run_plain hm hpat hbegins, run_fail once hne hfirst]
    simp

theorem fst_some (x : List (UInt8 × Bool)) : (x.map fun b => some b.1) = (x.map Prod.fst).map some := by simp

-- No byte is passed twice, and an occurrence counts as the replacement.
theorem after_length (x : List (UInt8 × Bool)) (h : (fill pat (run m once .idle x)).length ≤ x.length) :
    (fill pat (after m once x)).length ≤ x.length := by
  unfold after
  split
  · exact Nat.le_of_eq (by rw [fst_some, fill_some, List.length_map])
  · exact h

theorem run_length (hm : Spells m pat) (x : List (UInt8 × Bool)) :
    (fill pat (run m once .idle x)).length ≤ x.length ∧
      ∀ old w, (fill pat (run m once (.trying old w) x)).length ≤ old.length + w.length + x.length := by
  induction x with
  | nil => simp [run, fill]
  | cons b x ih =>
      obtain ⟨c, first⟩ := b
      obtain ⟨hidle, htrying⟩ := ih
      refine ⟨?_, fun old w => ?_⟩
      · rw [run]
        split
        · have := htrying [] [c]
          simp at this ⊢
          omega
        · simpa using hidle
      · have hkept : (if first then [] else old).length ≤ old.length := by cases first <;> simp
        by_cases hc : tolower c = m.data w.length
        · by_cases hlen : w.length + 1 = m.len
          · have hafter := after_length x hidle
            rw [run_done once hc hlen, fill_none_cons, List.length_append, ← hm.1, List.length_cons]
            omega
          · have := htrying (if first then [] else old) (w ++ [c])
            rw [run_next once hc hlen]
            simp only [List.length_append, List.length_cons, List.length_nil] at this ⊢
            omega
        · by_cases hfirst : tolower c = m.data 0
          · rw [run_again once hc hfirst]
            have hagain := htrying w [c]
            have hnew := htrying [] [c]
            simp only [List.length_cons, List.length_nil] at hagain hnew
            split
            · simp only [List.length_cons]
              omega
            · simp only [fill_append, fill_some, List.length_append, List.length_cons]
              omega
          · rw [run_fail once hc hfirst]
            simp only [fill_append, fill_some, List.length_append, List.length_cons, List.length_nil]
            omega

-- Unless the attempt fails in the buffer, the bytes saved before it are lost.
theorem kept_or (hm : Spells m pat) {old w : Bytes} (hw : w.map tolower <+: pat) (hlt : w.length < pat.length)
    (x : List (UInt8 × Bool)) :
    Kept pat (w.map tolower) x ∨ (fill pat (run m once (.trying old w) x)).length ≤ w.length + x.length := by
  induction x generalizing w with
  | nil =>
      right
      simp [run, fill]
  | cons b x ih =>
      obtain ⟨c, first⟩ := b
      cases first with
      | true =>
          right
          rw [run_fresh m once (by simp [Fresh])]
          simpa using (run_length hm ((c, true) :: x)).2 [] w
      | false =>
          by_cases hc : w.map tolower ++ [tolower c] <+: pat
          · have hdata := (continues_iff hm hw hlt c).mp hc
            by_cases hlen : w.length + 1 = m.len
            · right
              have hafter : (fill pat (after m once x)).length ≤ x.length := after_length x (run_length hm x).1
              rw [run_done once hdata hlen, fill_none_cons, List.length_append, ← hm.1, List.length_cons]
              omega
            · have hlt' : w.length + 1 < pat.length := by
                have := hm.1
                omega
              rw [run_goes hm (b := (c, false)) hc hlt']
              obtain hkept | hle := ih (w := w ++ [c]) (by simpa using hc) (by simpa using hlt')
              · left
                rw [List.map_append] at hkept
                exact Kept.goes hc (fun he => by simp [← he] at hlt') hkept
              · right
                simp only [List.length_append, List.length_cons, List.length_nil] at hle ⊢
                have hdrop : (if (c, false).2 = true then [] else old) = old := rfl
                rw [hdrop]
                omega
          · left
            exact Kept.fails hc

-- A match string of one byte is never completed.
theorem run_one (hm : Spells m pat) (hone : pat.length = 1) (x : List (UInt8 × Bool)) :
    none ∉ run m once .idle x ∧ ∀ old w, w ≠ [] → none ∉ run m once (.trying old w) x := by
  induction x with
  | nil => simp [run]
  | cons b x ih =>
      obtain ⟨c, first⟩ := b
      obtain ⟨hidle, htrying⟩ := ih
      refine ⟨?_, fun old w hw => ?_⟩
      · rw [run]
        split
        · exact htrying [] [c] (by simp)
        · simpa using hidle
      · have hlen : w.length + 1 ≠ m.len := by
          have := List.length_pos_iff.mpr hw
          have := hm.1
          omega
        by_cases hc : tolower c = m.data w.length
        · rw [run_next once hc hlen]
          exact htrying _ _ (by simp)
        · by_cases hfirst : tolower c = m.data 0
          · rw [run_again once hc hfirst]
            split
            · exact htrying _ _ (by simp)
            · simpa using htrying [] [c] (by simp)
          · rw [run_fail once hc hfirst]
            simpa using hidle

-- How an attempt ends
theorem attempt_cases {w : List (UInt8 × Bool)} (hw : low w <+: pat) (hlt : w.length < pat.length)
    (x : List (UInt8 × Bool)) :
    (low (w ++ x) <+: pat ∧ (w ++ x).length < pat.length) ∨ (∃ u y, x = u ++ y ∧ low (w ++ u) = pat) ∨
      ∃ u d y, x = u ++ d :: y ∧ low (w ++ u) <+: pat ∧ (w ++ u).length < pat.length ∧
        ¬low (w ++ u) ++ [tolower d.1] <+: pat := by
  induction x generalizing w with
  | nil => exact Or.inl (by simpa using ⟨hw, hlt⟩)
  | cons b x ih =>
      have hstep : low (w ++ [b]) = low w ++ [tolower b.1] := low_append w [b]
      by_cases hb : low w ++ [tolower b.1] <+: pat
      · by_cases hlen : w.length + 1 = pat.length
        · exact Or.inr (Or.inl ⟨[b], x, rfl, by rw [hstep]; exact hb.eq_of_length (by simpa [low] using hlen)⟩)
        · have hnext := ih (w := w ++ [b]) (hstep ▸ hb) (by rw [List.length_append, List.length_singleton]; omega)
          rw [List.append_assoc, List.singleton_append] at hnext
          obtain hall | ⟨u, y, rfl, hu⟩ | ⟨u, d, y, rfl, hu⟩ := hnext
          · exact Or.inl hall
          · exact Or.inr (Or.inl ⟨b :: u, y, rfl, by simpa using hu⟩)
          · exact Or.inr (Or.inr ⟨b :: u, d, y, rfl, by simpa using hu⟩)
      · exact Or.inr (Or.inr ⟨[], b, x, rfl, by simpa using ⟨hw, hlt, hb⟩⟩)

theorem begins_of_occurrence (hpat : pat ≠ []) {b : UInt8 × Bool} {x : List (UInt8 × Bool)} (h : pat <+: low (b :: x)) :
    [tolower b.1] <+: pat := by
  cases pat with
  | nil => exact absurd rfl hpat
  | cons p pat =>
      obtain ⟨rfl, _⟩ := List.cons_prefix_cons.mp h
      exact List.prefix_append [_] pat

theorem run_of_reads (hm : Spells m pat) (hpat : pat ≠ []) {x : List (UInt8 × Bool)} (h : Reads pat once x) :
    run m once .idle x = target pat once 0 (x.map Prod.fst) := by
  induction h with
  | nil => simp [run, target]
  | plain hb h ih => rw [run_plain hm hpat hb, target_some (fun hocc => hb (begins_of_occurrence hpat hocc)), ih]
  | found hlen hw h ih =>
      rw [run_found hm hlen hw, target_found hpat hw, after]
      cases once with
      | true => rfl
      | false => rw [if_neg Bool.false_ne_true, if_neg Bool.false_ne_true, ih rfl]
  | failed hne hw hd hocc hkept h ih =>
      rename_i w x d
      have hlt : w.length < pat.length := by
        have hle : w.length ≤ pat.length := by simpa [low] using hw.length_le
        have hlen : w.length ≠ pat.length := fun he => hocc w (List.suffix_refl w) hne (by
          rw [low_append, ← hw.eq_of_length (by simpa [low] using he)]
          exact List.prefix_append _ _)
        omega
      rw [← low_fst] at hd
      rw [run_attempt hm hne hw hlt, run_passes hm (low_fst w ▸ hw) (by simpa using hlt) hd hkept, ih, List.map_map]
      exact (target_passes.mpr ⟨hocc, rfl⟩).symm

-- An attempt that fails and whose bytes are passed
theorem failed_passes (hm : Spells m pat) (hpat : pat ≠ []) {w y : List (UInt8 × Bool)} {d : UInt8 × Bool} (hne : w ≠ [])
    (hw : low w <+: pat) (hlt : w.length < pat.length) (hd : ¬low w ++ [tolower d.1] <+: pat)
    (h : run m once .idle (w ++ d :: y) = target pat once 0 ((w ++ d :: y).map Prod.fst)) :
    (d.2 = true → [tolower d.1] <+: pat → Kept pat [tolower d.1] y) ∧
      (∀ t, t <:+ w → t ≠ [] → ¬pat <+: low (t ++ d :: y)) ∧
      run m once .idle (d :: y) = target pat once 0 ((d :: y).map Prod.fst) := by
  have hsize := congrArg (fun out => (fill pat out).length) h
  rw [target_length hpat] at hsize
  rw [← low_fst] at hw hd
  have hlt' : (w.map Prod.fst).length < pat.length := by simpa using hlt
  have hkept : d.2 = true → [tolower d.1] <+: pat → Kept pat [tolower d.1] y := by
    intro hfirst hbegins
    have hpos := List.length_pos_iff.mpr hne
    have hone : [d.1].length < pat.length := by
      rw [List.length_singleton]
      omega
    obtain hkept | hle : Kept pat [tolower d.1] y ∨
        (fill pat (run m once (.trying (w.map Prod.fst) [d.1]) y)).length ≤ [d.1].length + y.length :=
      kept_or hm (w := [d.1]) hbegins hone y
    · exact hkept
    · have hagain : run m once (.trying [] (w.map Prod.fst)) ((d.1, true) :: y) = _ :=
        run_again once (fun hc => hd ((continues_iff hm hw hlt' d.1).mpr hc)) ((begins_iff hm hpat d.1).mp hbegins) true y
      obtain ⟨c, first⟩ := d
      subst hfirst
      rw [run_attempt hm hne (low_fst w ▸ hw) hlt, hagain, if_pos rfl] at hsize
      simp only [List.length_append, List.length_cons, List.length_nil] at hle hsize
      omega
  rw [run_attempt hm hne (low_fst w ▸ hw) hlt, run_passes hm hw hlt' hd hkept, List.map_map] at h
  obtain ⟨hocc, hrest⟩ := target_passes.mp h.symm
  exact ⟨hkept, hocc, hrest.symm⟩

theorem reads_of_run (hm : Spells m pat) (hpat : pat ≠ []) {x : List (UInt8 × Bool)}
    (h : run m once .idle x = target pat once 0 (x.map Prod.fst)) : Reads pat once x := by
  induction hn : x.length using Nat.strongRecOn generalizing x with
  | ind n ih =>
      subst hn
      cases x with
      | nil => exact Reads.nil
      | cons b x =>
          by_cases hb : [tolower b.1] <+: pat
          · by_cases hone : pat.length = 1
            · have hocc : pat <+: low (b :: x) := by
                rw [← hb.eq_of_length (by simpa using hone.symm)]
                exact List.prefix_append _ _
              obtain ⟨y, hnone⟩ := target_none hocc
              exact absurd (by rw [h, hnone]; exact List.mem_cons_self) (run_one hm hone (b :: x)).1
            · have hpos := List.length_pos_iff.mpr hpat
              obtain ⟨hall, hlt⟩ | ⟨u, y, rfl, hu⟩ | ⟨u, d, y, rfl, hu, hlt, hd⟩ :=
                attempt_cases (w := [b]) hb (by simp; omega) x
              · -- The bytes of the attempt are not passed.
                have hlost : run m once .idle (b :: x ++ []) = _ := run_attempt hm (List.cons_ne_nil b x) hall hlt []
                rw [List.append_nil, h] at hlost
                have hsize := congrArg (fun out => (fill pat out).length) hlost
                rw [target_length hpat] at hsize
                simp [run, fill] at hsize
              · apply Reads.found (w := b :: u) (by omega) hu
                intro honce
                subst honce
                have hfound := (run_found hm (by omega) hu y).symm.trans h
                have htarget := hfound.trans (target_found hpat hu)
                have hlen : y.length < (b :: u ++ y).length := by
                  rw [List.length_append, List.length_cons]
                  omega
                exact ih _ hlen (List.cons.inj htarget).2 rfl
              · have hlen : (d :: y).length < ([b] ++ u ++ d :: y).length := by
                  rw [List.length_append, List.length_append, List.length_singleton]
                  omega
                obtain ⟨hkept, hocc, hrest⟩ := failed_passes hm hpat (List.cons_ne_nil b u) hu hlt hd h
                exact Reads.failed (List.cons_ne_nil b u) hu hd hocc hkept (ih _ hlen hrest rfl)
          · rw [run_plain hm hpat hb, target_some (fun hocc => hb (begins_of_occurrence hpat hocc))] at h
            exact Reads.plain hb (ih _ (Nat.lt_succ_self _) (List.cons.inj h).2 rfl)

end

theorem passes_substituted_iff (value : Bytes) (hvalue : value ≠ []) (behind : Nat → UInt8) (once : Bool)
    (calls : List (List Bytes)) :
    (∀ sub, respond value behind sub once calls = substitute (value.map tolower) sub once 0 calls.flatten.flatten) ↔
      Reads (value.map tolower) once (body calls) := by
  have hpat : value.map tolower ≠ [] := by simpa using hvalue
  have hm := matchOf_spells value behind
  simp only [respond_eq_run, substitute_eq_fill, ← body_fst]
  constructor
  · intro h
    exact reads_of_run hm hpat (fill_inj h)
  · intro h sub
    rw [run_of_reads hm hpat h]

theorem passes_substituted_iff_ab :
    (∀ sub, respond (ngxString "ab") (fun _ => 0) sub true [[ngxString "xA"], [ngxString "bab"]] =
      substitute ((ngxString "ab").map tolower) sub true 0 [[ngxString "xA"], [ngxString "bab"]].flatten.flatten) ↔
    Reads ((ngxString "ab").map tolower) true (body [[ngxString "xA"], [ngxString "bab"]]) :=
  passes_substituted_iff (ngxString "ab") (by decide) (fun _ => 0) true [[ngxString "xA"], [ngxString "bab"]]

-- The occurrence begins in the attempt at the first byte, which fails at the third one.
theorem occurrence_in_attempt_missed :
    respond (ngxString "aab") (fun _ => 0) (ngxString "X") false [[ngxString "aaab"]] = ngxString "aaab" ∧
      substitute ((ngxString "aab").map tolower) (ngxString "X") false 0 (ngxString "aaab") = ngxString "aX" := by
  decide

end Nginx.SubFilter
