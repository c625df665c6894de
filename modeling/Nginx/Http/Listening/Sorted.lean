import Nginx.Http.Listening

namespace Nginx.Listening

open Queue

variable {C : Type} {addrs sorted : List (ConfAddr C)} {p q : ConfAddr C}

theorem insertBack_skip {α : Type} {cmp : α → α → ℤ} {q : α} (xs ys : List α) (h : ∀ x ∈ xs, 0 < cmp x q) :
    insertBack cmp q (xs ++ ys) = xs ++ insertBack cmp q ys := by
  induction xs with
  | nil => rfl
  | cons x xs ih =>
      have hx := h x (by simp)
      rw [List.cons_append, insertBack, if_neg (by omega), ih fun y hy => h y (List.mem_cons_of_mem _ hy),
        List.cons_append]

theorem insertBack_stop {α : Type} {cmp : α → α → ℤ} {q : α} (ys : List α) (h : ∀ y ∈ ys, cmp y q ≤ 0) :
    insertBack cmp q ys = q :: ys := by
  cases ys with
  | nil => rfl
  | cons y ys => rw [insertBack, if_pos (h y (by simp))]

-- No explicitly bound wildcard stands behind an address which is not.
def InOrder (addrs : List (ConfAddr C)) : Prop :=
  addrs.Pairwise fun a b => b.wildcard = true → b.bind = true → a.bind = true

def Bound (a : ConfAddr C) : Prop := a.wildcard = false ∧ a.bind = true

def Unbound (a : ConfAddr C) : Prop := a.wildcard = false ∧ a.bind = false

theorem cmp_wildcard (hp : p.wildcard = true) : cmpConfAddrs p q = 1 := by
  simp [cmpConfAddrs, hp]

theorem cmp_same (hp : p.wildcard = false) (h : p.bind = q.bind) : cmpConfAddrs p q = 0 := by
  cases hq : q.bind <;> simp [cmpConfAddrs, hp, h, hq]

theorem cmp_bound (hp : Bound p) (hq : q.bind = false) : cmpConfAddrs p q = -1 := by
  simp [cmpConfAddrs, hp.1, hp.2, hq]

theorem cmp_unbound (hp : Unbound p) (hq : q.bind = true) : cmpConfAddrs p q = 1 := by
  simp [cmpConfAddrs, hp.1, hp.2, hq]

-- The sorted part of the array from its end: addresses without bind may have come behind the wildcard.
structure Arranged (addrs sorted vs ws us bs : List (ConfAddr C)) : Prop where
  split : sorted = vs ++ (ws ++ (us ++ bs))
  bound : ∀ b ∈ bs, Bound b
  unbound : ∀ u ∈ us, Unbound u
  behind : ∀ v ∈ vs, Unbound v
  wildcard : ∀ w ∈ ws, w.wildcard = true
  single : ws.length ≤ 1
  alone : ws = [] → vs = []
  moved : vs ≠ [] → us = []
  order : vs = [] ↔ InOrder addrs

theorem inOrder_append (addrs : List (ConfAddr C)) (p : ConfAddr C) :
    InOrder (addrs ++ [p]) ↔
      InOrder addrs ∧ ∀ a ∈ addrs, p.wildcard = true → p.bind = true → a.bind = true := by
  simp [InOrder, List.pairwise_append]

variable {vs ws us bs : List (ConfAddr C)}

theorem Arranged.insert_bound (h : Arranged addrs sorted vs ws us bs) (hp : Bound p) :
    Arranged (addrs ++ [p]) (insertBack cmpConfAddrs p sorted) vs ws us (p :: bs) := by
  obtain ⟨split, bound, unbound, behind, wildcard, single, alone, moved, order⟩ := h
  refine ⟨?_, ?_, unbound, behind, wildcard, single, alone, moved, ?_⟩
  · have hvs : ∀ v ∈ vs, 0 < cmpConfAddrs v p := fun v hv => by rw [cmp_unbound (behind v hv) hp.2]; decide
    have hws : ∀ w ∈ ws, 0 < cmpConfAddrs w p := fun w hw => by rw [cmp_wildcard (wildcard w hw)]; decide
    have hus : ∀ u ∈ us, 0 < cmpConfAddrs u p := fun u hu => by rw [cmp_unbound (unbound u hu) hp.2]; decide
    have hbs : ∀ b ∈ bs, cmpConfAddrs b p ≤ 0 := fun b hb =>
      Int.le_of_eq (cmp_same (bound b hb).1 ((bound b hb).2.trans hp.2.symm))
    rw [split, insertBack_skip vs _ hvs, insertBack_skip ws _ hws, insertBack_skip us _ hus,
      insertBack_stop bs hbs]
  · intro b hb
    rcases List.mem_cons.mp hb with rfl | hb
    · exact hp
    · exact bound b hb
  · rw [inOrder_append, order]
    simp [hp.1]

theorem Arranged.insert_unbound (h : Arranged addrs sorted vs ws us bs) (hp : Unbound p) :
    ∃ vs' us', Arranged (addrs ++ [p]) (insertBack cmpConfAddrs p sorted) vs' ws us' bs := by
  obtain ⟨split, bound, unbound, behind, wildcard, single, alone, moved, order⟩ := h
  have hcons : ∀ l : List (ConfAddr C), (∀ u ∈ l, Unbound u) → ∀ u ∈ p :: l, Unbound u := by
    intro l hl u hu
    rcases List.mem_cons.mp hu with rfl | hu
    · exact hp
    · exact hl u hu
  have horder : InOrder (addrs ++ [p]) ↔ InOrder addrs := by
    rw [inOrder_append]
    simp [hp.1]
  have hsame : ∀ l : List (ConfAddr C), (∀ u ∈ l, Unbound u) → ∀ u ∈ l, cmpConfAddrs u p ≤ 0 := fun l hl u hu =>
    Int.le_of_eq (cmp_same (hl u hu).1 ((hl u hu).2.trans hp.2.symm))
  cases vs with
  | nil =>
      refine ⟨[], p :: us, ?_, bound, hcons us unbound, behind, wildcard, single, alone, by simp, ?_⟩
      · have hws : ∀ w ∈ ws, 0 < cmpConfAddrs w p := fun w hw => by rw [cmp_wildcard (wildcard w hw)]; decide
        have hstop : ∀ q ∈ us ++ bs, cmpConfAddrs q p ≤ 0 := by
          intro q hq
          rcases List.mem_append.mp hq with hq | hq
          · exact hsame us unbound q hq
          · rw [cmp_bound (bound q hq) hp.2]
            decide
        rw [split, List.nil_append, insertBack_skip ws _ hws, insertBack_stop _ hstop]
        rfl
      · rw [horder]
        exact order
  | cons v vs =>
      refine ⟨p :: v :: vs, us, ?_, bound, unbound, hcons _ behind, wildcard, single, ?_, ?_, ?_⟩
      · rw [split, List.cons_append, insertBack, if_pos (hsame _ behind v (by simp))]
        rfl
      · intro hws
        cases alone hws
      · exact fun _ => moved (by simp)
      · rw [horder, ← order]
        simp

theorem Arranged.insert_wildcard (h : Arranged addrs sorted vs ws us bs) (hmem : ∀ a, a ∈ addrs ↔ a ∈ sorted)
    (hp : p.wildcard = true) (hnone : ∀ a ∈ addrs, a.wildcard = false) :
    ∃ vs' us', Arranged (addrs ++ [p]) (insertBack cmpConfAddrs p sorted) vs' [p] us' bs := by
  obtain ⟨split, bound, unbound, behind, wildcard, single, alone, moved, order⟩ := h
  have hws : ws = [] := by
    cases ws with
    | nil => rfl
    | cons w ws =>
        have hw := hnone w ((hmem w).mpr (by simp [split]))
        rw [wildcard w (by simp)] at hw
        cases hw
  have hvs := alone hws
  subst hws hvs
  have hold : InOrder addrs := order.mp rfl
  have hall : ∀ w ∈ [p], w.wildcard = true := by simp [hp]
  have hin : ∀ a, a ∈ addrs ↔ a ∈ us ∨ a ∈ bs := fun a => by simp [hmem, split]
  have hnew : InOrder (addrs ++ [p]) ↔ (p.bind = true → us = []) := by
    rw [inOrder_append]
    constructor
    · rintro ⟨-, hbefore⟩ hbind
      refine List.eq_nil_iff_forall_not_mem.mpr fun u hu => ?_
      have := hbefore u ((hin u).mpr (.inl hu)) hp hbind
      rw [(unbound u hu).2] at this
      cases this
    · intro hempty
      refine ⟨hold, fun a ha _ hbind => ?_⟩
      rcases (hin a).mp ha with hu | hb
      · rw [hempty hbind] at hu
        cases hu
      · exact (bound a hb).2
  cases hbind : p.bind with
  | false =>
      refine ⟨[], us, ?_, bound, unbound, by simp, hall, Nat.le_refl _, by simp, by simp, ?_⟩
      · have hstop : ∀ q ∈ us ++ bs, cmpConfAddrs q p ≤ 0 := by
          intro q hq
          rcases List.mem_append.mp hq with hq | hq
          · exact Int.le_of_eq (cmp_same (unbound q hq).1 ((unbound q hq).2.trans hbind.symm))
          · rw [cmp_bound (bound q hq) hbind]
            decide
        rw [split, List.nil_append, List.nil_append, insertBack_stop _ hstop]
        rfl
      · rw [hnew, hbind]
        simp
  | true =>
      refine ⟨us, [], ?_, bound, by simp, unbound, hall, Nat.le_refl _, by simp, fun _ => rfl, ?_⟩
      · have hskip : ∀ u ∈ us, 0 < cmpConfAddrs u p := fun u hu => by
          rw [cmp_unbound (unbound u hu) hbind]
          decide
        have hstop : ∀ b ∈ bs, cmpConfAddrs b p ≤ 0 := fun b hb =>
          Int.le_of_eq (cmp_same (bound b hb).1 ((bound b hb).2.trans hbind.symm))
        rw [split, List.nil_append, List.nil_append, insertBack_skip us _ hskip, insertBack_stop bs hstop]
        rfl
      · rw [hnew, hbind]
        simp

theorem fold_perm (addrs : List (ConfAddr C)) :
    (addrs.foldl (fun sorted q => insertBack cmpConfAddrs q sorted) []).Perm addrs := by
  have hsort := sort_perm cmpConfAddrs addrs
  unfold Queue.sort at hsort
  exact (List.reverse_perm _).symm.trans hsort

theorem sort_arranged (addrs : List (ConfAddr C)) (hsingle : addrs.countP (·.wildcard) ≤ 1) :
    ∃ vs ws us bs, Arranged addrs
      (addrs.foldl (fun sorted q => insertBack cmpConfAddrs q sorted) []) vs ws us bs := by
  induction addrs using List.reverseRecOn with
  | nil => exact ⟨[], [], [], [], rfl, by simp, by simp, by simp, by simp, by simp, by simp, by simp, by simp [InOrder]⟩
  | append_singleton addrs p ih =>
      rw [List.countP_append] at hsingle
      obtain ⟨vs, ws, us, bs, h⟩ := ih (by omega)
      rw [List.foldl_append, List.foldl_cons, List.foldl_nil]
      cases hwild : p.wildcard with
      | true =>
          have hnone : ∀ a ∈ addrs, a.wildcard = false := by
            have hone : [p].countP (·.wildcard) = 1 := by simp [hwild]
            have hzero : addrs.countP (·.wildcard) = 0 := by omega
            intro a ha
            simpa using List.countP_eq_zero.mp hzero a ha
          obtain ⟨vs', us', h'⟩ := h.insert_wildcard (fun a => (fold_perm addrs).mem_iff.symm) hwild hnone
          exact ⟨vs', [p], us', bs, h'⟩
      | false =>
          cases hbind : p.bind with
          | true => exact ⟨vs, ws, us, p :: bs, h.insert_bound ⟨hwild, hbind⟩⟩
          | false =>
              obtain ⟨vs', us', h'⟩ := h.insert_unbound (p := p) ⟨hwild, hbind⟩
              exact ⟨vs', ws, us', bs, h'⟩

theorem sort_ready_iff (addrs : List (ConfAddr C)) (hsingle : addrs.countP (·.wildcard) ≤ 1) :
    Ready (Queue.sort cmpConfAddrs addrs) ↔ InOrder addrs := by
  obtain ⟨vs, ws, us, bs, split, bound, unbound, behind, wildcard, single, alone, moved, order⟩ :=
    sort_arranged addrs hsingle
  rw [Queue.sort, split, ← order]
  constructor
  · intro hready
    by_contra hvs
    obtain ⟨v, vs, rfl⟩ := List.exists_cons_of_ne_nil hvs
    have hws : ws ≠ [] := fun h => hvs (alone h)
    obtain ⟨w, ws, rfl⟩ := List.exists_cons_of_ne_nil hws
    rcases hready with hnone | hall | ⟨bs', us', w', hsplit, hw', -⟩
    · have := hnone w (by simp)
      rw [wildcard w (by simp)] at this
      cases this
    · have hv := behind v (by simp)
      rcases hall v (by simp) with h | h
      · rw [hv.2] at h
        cases h
      · rw [hv.1] at h
        cases h
    · have hlast := congrArg List.getLast? hsplit
      simp only [List.getLast?_reverse, List.cons_append, List.head?_cons, List.getLast?_append,
        List.getLast?_singleton, Option.some_or, Option.some.injEq] at hlast
      have hv := behind v (by simp)
      rw [hlast] at hv
      exact absurd (hv.1.symm.trans hw') (by decide)
  · rintro rfl
    cases ws with
    | nil =>
        left
        intro a ha
        simp only [List.nil_append, List.mem_reverse, List.mem_append] at ha
        rcases ha with hu | hb
        · exact (unbound a hu).1
        · exact (bound a hb).1
    | cons w ws =>
        have hws : ws = [] := List.length_eq_zero_iff.mp (by simpa using single)
        subst hws
        refine .inr (.inr ⟨bs.reverse, us.reverse, w, by simp, wildcard w (by simp), ?_, ?_⟩)
        · intro b hb
          exact (bound b (List.mem_reverse.mp hb)).2
        · intro u hu
          exact (unbound u (List.mem_reverse.mp hu)).2

end Nginx.Listening
