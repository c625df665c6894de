import Nginx.Core.RadixTree
import Nginx.Library.LinkedTrie

namespace Nginx.RadixTree

open LinkedTree LinkedTree.Linked

-- The sides that the n lowest bits of a key select, from the highest one on.
def digits (key : Nat) : Nat → List Dir
  | 0 => []
  | n + 1 => side key n :: digits key n

@[simp] theorem digits_length (key n : Nat) : (digits key n).length = n := by
  induction n with
  | zero => rfl
  | succ n ih => simp [digits, ih]

-- A mask whose k lowest bits are clear.
def Clears (mask k : Nat) : Prop := ∀ n < 32, mask.testBit n = decide (k ≤ n)

-- The part of a key above its k lowest bits.
def route (key k n : Nat) : List Dir := (digits key n).take (n - k)

theorem route_self (key k : Nat) : route key k k = [] := by simp [route]

theorem route_succ (key k n : Nat) (h : k ≤ n) : route key k (n + 1) = side key n :: route key k n := by
  rw [route, route, digits, Nat.succ_sub h, List.take_succ_cons]

@[simp] theorem route_length (key k n : Nat) : (route key k n).length = n - k := by simp [route]

variable {H : Heap Nat} {fs : List (Frame Nat)} {t : Linked Nat} {key mask k n : Nat}

-- The node at the end of a route is there, or the route leaves the tree at some link.
theorem descend_spec (hmask : Clears mask k) (hk : k ≤ n) (hn : n ≤ 32) (h : Focus H 0 fs t) (hne : t ≠ nil)
    (hnull : 0 ∉ t.toList) :
    (∃ gs p a l r, descend H key mask n (t.ptr 0) = some (k, p, p) ∧
      plug fs t = plug gs (branch .left p a l r) ∧ path gs = path fs ++ route key k n) ∨
    ∃ f gs j, descend H key mask n (t.ptr 0) = some (j + 1, f.ptr, 0) ∧ k ≤ j ∧ j < n ∧
      plug fs t = plug (f :: gs) nil ∧ f.dir = side key j ∧
      path (f :: gs) ++ route key k j = path fs ++ route key k n := by
  induction n generalizing fs t with
  | zero =>
      obtain rfl : k = 0 := by omega
      obtain ⟨p, a, l, r, rfl⟩ := eq_branch .left t hne
      exact .inl ⟨fs, p, a, l, r, by simp [descend], rfl, by simp [route_self]⟩
  | succ n ih =>
      by_cases hkn : k = n + 1
      · subst hkn
        obtain ⟨p, a, l, r, rfl⟩ := eq_branch .left t hne
        have hbit : mask.testBit n = false := by
          rw [hmask n (by omega)]
          simp
        exact .inl ⟨fs, p, a, l, r, by simp [descend, hbit], rfl, by simp [route_self]⟩
      · obtain ⟨p, a, u, v, rfl⟩ := eq_branch (side key n) t hne
        have hbit : mask.testBit n = true := by
          rw [hmask n (by omega)]
          simp only [decide_eq_true_eq]
          omega
        simp only [mem_toList_branch, not_or] at hnull
        have hp : p ≠ 0 := Ne.symm hnull.1
        have hread : H.child (side key n) p = u.ptr 0 := h.child_eq
        have hdown := (focus_down (side key n) p a u v fs).mp h
        have hroute := route_succ key k n (by omega)
        rw [ptr_branch]
        by_cases hu : u = nil
        · subst hu
          refine .inr ⟨⟨side key n, p, a, v⟩, fs, n, by simp [descend, hbit, hp, hread], by omega, by omega, rfl, rfl, ?_⟩
          rw [hroute]
          simp
        · have hu0 : u.ptr 0 ≠ 0 := (ptr_eq_nil_iff 0 u hnull.2.1).not.mpr hu
          have hstep : descend H key mask (n + 1) p = descend H key mask n (u.ptr 0) := by
            simp [descend, hbit, hp, hread, hu0]
          have hpath : path fs ++ route key k (n + 1) =
              path (⟨side key n, p, a, v⟩ :: fs) ++ route key k n := by
            rw [hroute]
            simp
          rw [hstep, hpath]
          rcases ih (by omega) (by omega) hdown hu hnull.2.1 with
            ⟨gs, q, b, l, r, hrun, hplug, hgs⟩ | ⟨f, gs, j, hrun, hkj, hjn, hplug, hf, hgs⟩
          · exact .inl ⟨gs, q, b, l, r, hrun, hplug, hgs⟩
          · exact .inr ⟨f, gs, j, hrun, hkj, by omega, hplug, hf, hgs⟩

theorem locate_spec (hmask : Clears mask k) (hk : k ≤ n) (hn : n ≤ 32) (h : Focus H 0 fs t)
    (hnull : 0 ∉ t.toList) :
    (∃ gs p a l r, locate H key mask n (t.ptr 0) = p ∧ plug fs t = plug gs (branch .left p a l r) ∧
      path gs = path fs ++ route key k n) ∨
    (locate H key mask n (t.ptr 0) = 0 ∧ (plug fs t).value noValue (path fs ++ route key k n) = none) := by
  induction n generalizing fs t with
  | zero =>
      obtain rfl : k = 0 := by omega
      by_cases ht : t = nil
      · subst ht
        exact .inr ⟨rfl, by rw [value_plug_path]; simp⟩
      · obtain ⟨p, a, l, r, rfl⟩ := eq_branch .left t ht
        exact .inl ⟨fs, p, a, l, r, by simp [locate], rfl, by simp [route_self]⟩
  | succ n ih =>
      by_cases ht : t = nil
      · subst ht
        exact .inr ⟨by simp [locate], by rw [value_plug_path]; simp⟩
      · by_cases hkn : k = n + 1
        · subst hkn
          obtain ⟨p, a, l, r, rfl⟩ := eq_branch .left t ht
          have hbit : mask.testBit n = false := by
            rw [hmask n (by omega)]
            simp
          exact .inl ⟨fs, p, a, l, r, by simp [locate, hbit], rfl, by simp [route_self]⟩
        · obtain ⟨p, a, u, v, rfl⟩ := eq_branch (side key n) t ht
          have hbit : mask.testBit n = true := by
            rw [hmask n (by omega)]
            simp only [decide_eq_true_eq]
            omega
          simp only [mem_toList_branch, not_or] at hnull
          have hp : p ≠ 0 := Ne.symm hnull.1
          have hread : H.child (side key n) p = u.ptr 0 := h.child_eq
          have hdown := (focus_down (side key n) p a u v fs).mp h
          have hstep : locate H key mask (n + 1) p = locate H key mask n (u.ptr 0) := by
            simp [locate, hbit, hp, hread]
          have hpath : path fs ++ route key k (n + 1) =
              path (⟨side key n, p, a, v⟩ :: fs) ++ route key k n := by
            rw [route_succ key k n (by omega)]
            simp
          rw [ptr_branch, hstep, hpath]
          exact ih (by omega) (by omega) hdown hnull.2.1

-- The tree in the heap, whose root has no parent, with the nodes that the pool gave.
structure Rep (pool : Pool) (T : Radix) (t : Linked Nat) : Prop where
  focus : Focus T.nodes 0 [] t
  ne_nil : t ≠ nil
  top : T.nodes.parent T.nodes.root = 0
  depth : t.depth ≤ 33
  owned : ∃ l, Owned pool T t.toList l

variable {pool : Pool} {T : Radix}

theorem Owned.distinct {l : List Ptr} (h : Owned pool T t.toList l) : Distinct 0 t := by
  have hnull := h.null
  rw [List.mem_append, not_or] at hnull
  exact ⟨(List.nodup_append.mp h.nodup).1, hnull.1, hnull.1⟩

theorem Rep.distinct (h : Rep pool T t) : Distinct 0 t := h.owned.choose_spec.distinct

-- A new value at a node that is there.
theorem Rep.setLabel {gs : List (Frame Nat)} {p : Ptr} {a : Nat} {l r : Linked Nat}
    (h : Rep pool T (plug gs (branch .left p a l r))) (b : Nat) :
    Rep pool { T with nodes := T.nodes.setLabel p b } (plug gs (branch .left p b l r)) := by
  have hfocus := (focus_plug gs [] _).mp h.focus
  have hdist := h.distinct
  rw [List.append_nil] at hfocus
  have hnew := hfocus.setLabel hdist b
  have hlist : (plug gs (branch .left p b l r)).toList = (plug gs (branch .left p a l r)).toList := by
    simp [toList_plug]
  obtain ⟨fl, howned⟩ := h.owned
  refine ⟨?_, ?_, h.top, ?_, fl, ?_⟩
  · rw [← List.append_nil gs] at hnew
    exact (focus_plug gs [] _).mpr hnew
  · intro hnil
    have hmem : p ∈ (plug gs (branch .left p b l r)).toList := (mem_plug p).mpr (.inl (by simp))
    rw [hnil] at hmem
    cases hmem
  · have hle := depth_plug_le gs (branch .left p a l r) (branch .left p b l r)
    have hlow := depth_le_plug gs (branch .left p a l r)
    have hdepth := h.depth
    rw [depth_branch] at hle hlow
    omega
  · exact howned.write (hlist ▸ List.Perm.refl _) fun _ _ => rfl

theorem initNode_eq (d : Dir) (x p : Ptr) (hx : x ≠ p) :
    (initNode H x p).setChild d p x = leafAt H 0 d p x noValue := by
  simp only [initNode, leafAt, Heap.setChild, Heap.setParent, Heap.setLabel, Heap.mk.injEq, and_true]
  funext e r
  by_cases hr : r = p
  · subst hr
    simp [Ne.symm hx]
  · by_cases hrx : r = x <;> cases e <;> simp [hr, hrx, hx]

theorem branch_leaf (d e : Dir) (p : Ptr) (a : Nat) : branch d p a nil nil = branch e p a nil nil := by
  cases d <;> cases e <;> rfl

-- A new leaf without a value.
theorem attach_spec (hpool : pool.Sound) (f : Frame Nat) (gs : List (Frame Nat))
    (h : Rep pool T (plug (f :: gs) nil)) (hlen : gs.length < 32) :
    ∃ x T' H', alloc pool T = (x, T') ∧ x ≠ 0 ∧ f.ptr ≠ 0 ∧
      H' = (initNode T'.nodes x f.ptr).setChild f.dir f.ptr x ∧
      Rep pool { T' with nodes := H' } (plug (f :: gs) (branch .left x noValue nil nil)) ∧
      ∀ q, (plug (f :: gs) (branch .left x noValue nil nil)).value noValue q =
        (plug (f :: gs) nil).value noValue q := by
  have hdist := h.distinct
  have hfocus := (focus_plug (f :: gs) [] nil).mp h.focus
  rw [List.append_nil] at hfocus
  obtain ⟨l, howned⟩ := h.owned
  obtain ⟨x, T', l', halloc, hnodes, hx0, howned'⟩ := alloc_spec hpool howned
  have hmemf : f.ptr ∈ (plug (f :: gs) nil).toList := (mem_plug _).mpr (.inr (by simp))
  have hx : x ∉ (plug (f :: gs) nil).toList := by
    have hnodup := howned'.nodup
    rw [List.cons_append, List.nodup_cons] at hnodup
    exact fun hmem => hnodup.1 (List.mem_append_left _ hmem)
  have hxf : x ≠ f.ptr := fun heq => hx (heq ▸ hmemf)
  have hroot : T.nodes.root ∈ (plug (f :: gs) nil).toList := by
    rw [h.focus.root_eq]
    exact ptr_mem 0 _ h.ne_nil
  refine ⟨x, T', _, halloc, hx0, hdist.ne_null hmemf, rfl, ⟨?_, ?_, ?_, ?_, l', ?_⟩, fun q => ?_⟩
  · rw [hnodes, initNode_eq _ _ _ hxf, focus_plug, List.append_nil]
    exact hfocus.leafAt hdist hx noValue
  · intro hnil
    have hmem : x ∈ (plug (f :: gs) (branch .left x noValue nil nil)).toList :=
      (mem_plug x).mpr (.inl (by simp))
    rw [hnil] at hmem
    cases hmem
  · have hne : T.nodes.root ≠ x := fun heq => hx (heq ▸ hroot)
    rw [hnodes, initNode_eq _ _ _ hxf]
    simpa [leafAt, hne] using h.top
  · have hle := depth_plug_le (f :: gs) nil (branch .left x noValue nil nil)
    have hdepth := h.depth
    rw [depth_branch] at hle
    simp only [depth, List.length_cons] at hle
    omega
  · refine howned'.write ?_ fun q hq => ?_
    · exact (toList_plug_perm _ _).trans ((toList_plug_perm (f :: gs) (nil : Linked Nat)).symm.cons x)
    · have hout := howned'.mem_free hq
      rw [List.mem_cons, not_or] at hout
      have hqf : q ≠ f.ptr := fun heq => hout.2 (heq ▸ hmemf)
      simp [initNode, hout.1, hqf]
  · refine value_plug_congr _ _ _ (fun q => ?_) q
    rw [value_leaf]
    simp

theorem extend_spec (hpool : pool.Sound) (hmask : Clears mask k) (j : Nat) (hk : k ≤ j) (hj : j < 32)
    (f : Frame Nat) (gs : List (Frame Nat)) (h : Rep pool T (plug (f :: gs) nil))
    (hf : f.dir = side key j) (hlen : gs.length + (j - k) < 32) :
    ∃ x T' gs', extend pool key mask (j + 1) T f.ptr = some (some x, T') ∧
      Rep pool T' (plug gs' (branch .left x noValue nil nil)) ∧
      path gs' = path (f :: gs) ++ route key k j ∧
      ∀ q, (plug gs' (branch .left x noValue nil nil)).value noValue q =
        (plug (f :: gs) nil).value noValue q := by
  induction j generalizing T f gs with
  | zero =>
      obtain rfl : k = 0 := by omega
      obtain ⟨x, T', H', halloc, hx0, hf0, hH', h', hvalue⟩ := attach_spec hpool f gs h (by omega)
      have hbit : mask.testBit 0 = true := by
        rw [hmask 0 (by omega)]
        simp
      rw [hf] at hH'
      exact ⟨x, _, f :: gs, by simp [extend, hbit, halloc, hx0, hf0, ← hH'], h', by simp [route_self], hvalue⟩
  | succ j ih =>
      obtain ⟨x, T', H', halloc, hx0, hf0, hH', h', hvalue⟩ := attach_spec hpool f gs h (by omega)
      have hbit : mask.testBit (j + 1) = true := by
        rw [hmask (j + 1) (by omega)]
        simpa using hk
      rw [hf] at hH'
      have hstep : extend pool key mask (j + 2) T f.ptr =
          extend pool key mask (j + 1) { T' with nodes := H' } x := by
        rw [extend]
        simp [hbit, halloc, hx0, hf0, ← hH']
      rw [hstep]
      by_cases hkj : k = j + 1
      · subst hkj
        have hbit' : mask.testBit j = false := by
          rw [hmask j (by omega)]
          simp
        exact ⟨x, _, f :: gs, by simp [extend, hbit'], h', by simp [route_self], hvalue⟩
      · rw [branch_leaf .left (side key j)] at h' hvalue
        obtain ⟨y, T'', gs', hrun, h'', hpath, hvalue'⟩ := ih (by omega) (by omega)
          ⟨side key j, x, noValue, nil⟩ (f :: gs) h' rfl (by simp only [List.length_cons]; omega)
        refine ⟨y, T'', gs', hrun, h'', ?_, fun q => (hvalue' q).trans (hvalue q)⟩
        rw [hpath, route_succ key k j (by omega)]
        simp

-- The entry of a key and a mask with k clear bits.
def entryPath (key k : Nat) : List Dir := route key k 32

theorem value_relabel (gs : List (Frame Nat)) (p : Ptr) (a b : Nat) (l r : Linked Nat) (q : List Dir) :
    (plug gs (branch .left p b l r)).value noValue q =
      if q = path gs then (if b = noValue then none else some b)
      else (plug gs (branch .left p a l r)).value noValue q := by
  have hrest : ∀ e, e ≠ [] → (branch .left p a l r).value noValue e = (branch .left p b l r).value noValue e := by
    intro e he
    cases e with
    | nil => exact absurd rfl he
    | cons d e => rw [value_branch_cons, value_branch_cons]
  rw [value_plug_update gs _ _ [] hrest q, List.append_nil, value_branch_nil]

theorem value_at_node (gs : List (Frame Nat)) (p : Ptr) (a : Nat) (l r : Linked Nat) :
    (plug gs (branch .left p a l r)).value noValue (path gs) = if a = noValue then none else some a := by
  rw [← List.append_nil (path gs), value_plug_path, value_branch_nil]

theorem insert_spec (key : Nat) (hpool : pool.Sound) (hmask : Clears mask k) (hk : k ≤ 32) (v : Nat) (h : Rep pool T t) :
    match t.value noValue (entryPath key k) with
    | some _ => insert pool T key mask v = some (.busy, T)
    | none => ∃ T' t', insert pool T key mask v = some (.ok, T') ∧ Rep pool T' t' ∧
        ∀ q, t'.value noValue q =
          if q = entryPath key k then (if v = noValue then none else some v) else t.value noValue q := by
  have hroot : T.nodes.root = t.ptr 0 := h.focus.root_eq
  rcases descend_spec hmask hk (Nat.le_refl 32) h.focus h.ne_nil h.distinct.null with
    ⟨gs, p, a, l, r, hrun, hplug, hgs⟩ | ⟨f, gs, j, hrun, hkj, hj, hplug, hf, hgs⟩
  · rw [path_nil, List.nil_append, ← entryPath] at hgs
    rw [plug_nil] at hplug
    rw [← hroot] at hrun
    rw [hplug] at h
    have hp : p ≠ 0 := h.distinct.ne_null ((mem_plug p).mpr (.inl (by simp)))
    have hlabel : T.nodes.label p = a := ((focus_plug gs [] _).mp h.focus).label_eq
    rw [hplug, ← hgs, value_at_node]
    by_cases ha : a = noValue
    · rw [if_pos ha]
      exact ⟨_, _, by simp [insert, hrun, hp, hlabel, ha], h.setLabel v, value_relabel gs p a v l r⟩
    · rw [if_neg ha]
      simp [insert, hrun, hp, hlabel, ha]
  · rw [path_nil, List.nil_append, ← entryPath] at hgs
    rw [plug_nil] at hplug
    rw [← hroot] at hrun
    rw [hplug] at h
    have hlen := congrArg List.length hgs
    rw [List.length_append, path_length, route_length, entryPath, route_length, List.length_cons] at hlen
    obtain ⟨x, T₁, gs', hextend, h₁, hpath, hsame⟩ := extend_spec hpool hmask j hkj hj f gs h hf (by omega)
    rw [hplug, ← hgs, value_plug_path, value_nil]
    refine ⟨_, _, by simp [insert, hrun, hextend], h₁.setLabel v, fun q => ?_⟩
    rw [value_relabel gs' x noValue v nil nil q, hpath, hsame]

-- A leaf below the root moves to the free list.
theorem unlink_spec {f : Frame Nat} {gs : List (Frame Nat)} {p : Ptr} {a : Nat}
    (h : Rep pool T (plug (f :: gs) (branch .left p a nil nil))) :
    T.nodes.parent p = f.ptr ∧ f.ptr ≠ 0 ∧ ∃ H,
      H = (if T.nodes.child .right f.ptr = p then T.nodes.setChild .right f.ptr 0
        else T.nodes.setChild .left f.ptr 0) ∧
      Rep pool { T with nodes := H.setChild .right p T.free, free := p } (plug (f :: gs) nil) := by
  have hdist := h.distinct
  have hfocus := (focus_plug (f :: gs) [] _).mp h.focus
  rw [List.append_nil] at hfocus
  have hup : T.nodes.parent p = f.ptr := by simpa using hfocus.parent_eq (branch_ne_nil _ _ _ _ _)
  have hf0 : f.ptr ≠ 0 := hdist.ne_null ((mem_plug _).mpr (.inr (by simp)))
  have hside := hfocus.side_iff hdist (.inl (branch_ne_nil _ _ _ _ _)) .right
  rw [ptr_branch] at hside
  have hH : (if T.nodes.child .right f.ptr = p then T.nodes.setChild .right f.ptr 0
      else T.nodes.setChild .left f.ptr 0) = point T.nodes (f :: gs) 0 := by
    by_cases hr : f.dir = .right
    · rw [if_pos (hside.mpr hr).symm, point, hr]
    · have hl : f.dir = .left := Dir.eq_flip_of_ne hr
      rw [if_neg fun heq => hr (hside.mp heq.symm), point, hl]
  obtain ⟨hnodup, -, -⟩ := hdist.split
  rw [List.nodup_append] at hnodup
  have hp : p ∉ (plug (f :: gs) (nil : Linked Nat)).toList := by
    rw [mem_plug, toList_nil]
    rintro (hmem | hmem)
    · cases hmem
    · exact hnodup.2.2 p (by simp) p hmem rfl
  have hhole := hfocus.hole
  rw [ptr_branch] at hhole
  have hpoint : Focus (point T.nodes (f :: gs) 0) 0 (f :: gs) nil :=
    ⟨hhole.point hnodup.2.1 0, trivial, fun hne => absurd rfl hne⟩
  have hfree : Frozen (point T.nodes (f :: gs) 0) ((point T.nodes (f :: gs) 0).setChild .right p T.free) [p] :=
    Frozen.refl.setChild (by simp) _ _
  have hnew := (hfree.agree fun q hq => by simpa using fun heq : q = p => hp (heq ▸ hq)).focus rfl hpoint
  refine ⟨hup, hf0, _, rfl, ?_⟩
  rw [hH]
  obtain ⟨l, howned⟩ := h.owned
  refine ⟨?_, ?_, h.top, ?_, p :: l, ?_⟩
  · rw [focus_plug, List.append_nil]
    exact hnew
  · intro hnil
    have hmem : f.ptr ∈ (plug (f :: gs) (nil : Linked Nat)).toList := (mem_plug _).mpr (.inr (by simp))
    rw [hnil] at hmem
    cases hmem
  · have hle := depth_plug_le (f :: gs) (branch .left p a nil nil) nil
    have hlow := depth_le_plug (f :: gs) (branch .left p a nil nil)
    have hdepth := h.depth
    rw [depth_branch] at hlow
    simp only [depth] at hle hlow
    omega
  · have hperm : (p :: (plug (f :: gs) (nil : Linked Nat)).toList).Perm
        (plug (f :: gs) (branch .left p a nil nil)).toList :=
      ((toList_plug_perm (f :: gs) nil).cons p).trans (toList_plug_perm (f :: gs) (branch .left p a nil nil)).symm
    have hmoved : Owned pool { T with nodes := point T.nodes (f :: gs) 0 }
        (p :: (plug (f :: gs) (nil : Linked Nat)).toList) l := by
      refine howned.write hperm fun q hq => ?_
      have hout := howned.mem_free hq
      rw [mem_plug, not_or] at hout
      exact point_child _ _ _ _ hout.2
    exact hmoved.release

-- The loop goes up while it leaves leaves without a value, and it never takes the root.
theorem prune_spec (fuel : Nat) (f : Frame Nat) (gs : List (Frame Nat)) (p : Ptr) (a : Nat)
    (h : Rep pool T (plug (f :: gs) (branch .left p a nil nil))) (hfuel : gs.length < fuel) :
    ∃ T' t', prune fuel T p = some T' ∧ Rep pool T' t' ∧
      ∀ q, t'.value noValue q = (plug (f :: gs) nil).value noValue q := by
  induction fuel generalizing T f gs p a with
  | zero => omega
  | succ fuel ih =>
      obtain ⟨hup, hf0, H, hH, h₁⟩ := unlink_spec h
      have hfocus := (focus_plug (f :: gs) [] _).mp h₁.focus
      rw [List.append_nil] at hfocus
      have hnode := (focus_down f.dir f.ptr f.label nil f.sib gs).mpr hfocus
      have hchild : (H.setChild .right p T.free).child f.dir f.ptr = 0 := hnode.child_eq
      have hflip : (H.setChild .right p T.free).child f.dir.flip f.ptr = f.sib.ptr 0 := hnode.child_flip_eq
      have hlabel : (H.setChild .right p T.free).label f.ptr = f.label := hnode.label_eq
      have hsib0 : 0 ∉ f.sib.toList := fun hmem => h₁.distinct.null
        ((mem_plug 0).mpr (.inr (by simp [hmem])))
      have hleaf : (H.setChild .right p T.free).child .right f.ptr ≠ 0 ∨
          (H.setChild .right p T.free).child .left f.ptr ≠ 0 ↔ f.sib ≠ nil := by
        rw [ne_eq f.sib nil, ← ptr_eq_nil_iff 0 f.sib hsib0, ← hflip]
        cases hd : f.dir with
        | left =>
            rw [hd] at hchild
            rw [hchild]
            simp [Dir.flip]
        | right =>
            rw [hd] at hchild
            rw [hchild]
            simp [Dir.flip]
      have hrun : prune (fuel + 1) T p =
          let T' := { T with nodes := H.setChild .right p T.free, free := p }
          if T'.nodes.child .right f.ptr ≠ 0 ∨ T'.nodes.child .left f.ptr ≠ 0 then some T'
          else if T'.nodes.label f.ptr ≠ noValue then some T'
          else if T'.nodes.parent f.ptr = 0 then some T' else prune fuel T' f.ptr := by
        simp only [prune, hup, deref_of_ne, hf0, ne_eq, not_false_eq_true, Option.bind_eq_bind,
          Option.bind_some, ← hH, Option.pure_def]
      rw [hrun]
      simp only [hlabel]
      by_cases hsib : f.sib = nil
      · rw [if_neg (hleaf.not.mpr (not_not.mpr hsib))]
        by_cases hvalue : f.label = noValue
        · rw [if_neg (not_not.mpr hvalue)]
          cases gs with
          | nil =>
              have hroot : H.root = f.ptr := by simpa using hnode.root_eq
              have htop := h₁.top
              simp only [Heap.setChild_root, Heap.setChild_parent] at htop
              rw [hroot] at htop
              rw [if_pos (by simpa using htop)]
              exact ⟨_, _, rfl, h₁, fun _ => rfl⟩
          | cons g gs =>
              have hparent : (H.setChild .right p T.free).parent f.ptr = g.ptr := by
                simpa using hnode.parent_eq (branch_ne_nil _ _ _ _ _)
              have hg0 : g.ptr ≠ 0 := h₁.distinct.ne_null ((mem_plug _).mpr (.inr (by simp)))
              rw [if_neg (by rw [hparent]; exact hg0)]
              have heq : plug (f :: g :: gs) nil = plug (g :: gs) (branch .left f.ptr noValue nil nil) := by
                rw [plug_cons, hsib, hvalue, branch_leaf f.dir .left]
              rw [heq] at h₁
              obtain ⟨T', t', hprune, h', hsame⟩ := ih g gs f.ptr noValue h₁ (by
                simp only [List.length_cons] at hfuel
                omega)
              refine ⟨T', t', hprune, h', fun q => ?_⟩
              rw [hsame, heq]
              refine value_plug_congr _ _ _ (fun e => ?_) q
              rw [value_leaf]
              simp
        · rw [if_pos hvalue]
          exact ⟨_, _, rfl, h₁, fun _ => rfl⟩
      · rw [if_pos (hleaf.mpr hsib)]
        exact ⟨_, _, rfl, h₁, fun _ => rfl⟩

-- The leaves that the loop must not start from: the root, and a node without a value.
def Prunable (T : Radix) (key mask : Nat) : Prop :=
  let node := locate T.nodes key mask 32 T.nodes.root
  node ≠ 0 ∧ T.nodes.child .right node = 0 ∧ T.nodes.child .left node = 0 →
    T.nodes.parent node ≠ 0 ∧ T.nodes.label node ≠ noValue

instance (T : Radix) (key mask : Nat) : Decidable (Prunable T key mask) := inferInstanceAs (Decidable (_ → _))

theorem delete_spec (fuel : Nat) (hmask : Clears mask k) (hk : k ≤ 32) (h : Rep pool T t)
    (hprune : Prunable T key mask) (hfuel : 32 ≤ fuel) :
    match t.value noValue (entryPath key k) with
    | none => delete fuel T key mask = some (.error, T)
    | some _ => ∃ T' t', delete fuel T key mask = some (.ok, T') ∧ Rep pool T' t' ∧
        ∀ q, t'.value noValue q = if q = entryPath key k then none else t.value noValue q := by
  have hroot : T.nodes.root = t.ptr 0 := h.focus.root_eq
  rcases locate_spec hmask hk (Nat.le_refl 32) h.focus h.distinct.null with
    ⟨gs, p, a, l, r, hrun, hplug, hgs⟩ | ⟨hrun, hnone⟩
  · rw [path_nil, List.nil_append, ← entryPath] at hgs
    rw [plug_nil] at hplug
    rw [← hroot] at hrun
    rw [hplug] at h
    have hfocus := (focus_plug gs [] _).mp h.focus
    have hp : p ≠ 0 := h.distinct.ne_null ((mem_plug p).mpr (.inl (by simp)))
    have hlabel : T.nodes.label p = a := hfocus.label_eq
    have hl0 : 0 ∉ l.toList := fun hmem => h.distinct.null ((mem_plug 0).mpr (.inl (by simp [hmem])))
    have hr0 : 0 ∉ r.toList := fun hmem => h.distinct.null ((mem_plug 0).mpr (.inl (by simp [hmem])))
    have hleft : T.nodes.child .left p = 0 ↔ l = nil := by
      rw [← ptr_eq_nil_iff 0 l hl0, ← hfocus.child_eq]
    have hright : T.nodes.child .right p = 0 ↔ r = nil := by
      rw [← ptr_eq_nil_iff 0 r hr0, ← hfocus.child_flip_eq]
      rfl
    rw [hplug, ← hgs, value_at_node]
    by_cases hleaf : l = nil ∧ r = nil
    · obtain ⟨rfl, rfl⟩ := hleaf
      rw [Prunable, hrun, hright, hleft, hlabel] at hprune
      obtain ⟨hparent, hvalue⟩ := hprune ⟨hp, rfl, rfl⟩
      rw [if_neg hvalue]
      cases gs with
      | nil =>
          have htop := h.top
          rw [h.focus.root_eq, plug_nil, ptr_branch] at htop
          exact absurd htop hparent
      | cons f gs =>
          have hlen := congrArg List.length hgs
          rw [path_length, entryPath, route_length, List.length_cons] at hlen
          obtain ⟨T', t', hprune, h', hsame⟩ := prune_spec fuel f gs p a h (by omega)
          refine ⟨T', t', by simp [delete, hrun, hp, hleft, hright, hprune], h', fun q => ?_⟩
          rw [hsame]
          have hrest : ∀ e, e ≠ [] →
              (branch .left p a nil nil).value noValue e = (nil : Linked Nat).value noValue e := by
            intro e he
            rw [value_leaf, if_neg fun hand => he hand.1, value_nil]
          rw [value_plug_update (f :: gs) _ _ [] hrest q, List.append_nil, value_nil]
    · have hinner : T.nodes.child .right p ≠ 0 ∨ T.nodes.child .left p ≠ 0 := by
        rw [ne_eq, ne_eq, hright, hleft]
        tauto
      by_cases ha : a = noValue
      · rw [if_pos ha]
        simp only [delete, hrun, if_neg hp, if_pos hinner, hlabel, ha, ne_eq, not_true_eq_false, if_false]
      · rw [if_neg ha]
        refine ⟨_, _, by simp only [delete, hrun, if_neg hp, if_pos hinner, hlabel, ne_eq, ha, not_false_eq_true, if_true], h.setLabel noValue, fun q => ?_⟩
        rw [value_relabel gs p a noValue l r q, if_pos rfl]
  · rw [plug_nil, path_nil, List.nil_append, ← entryPath] at hnone
    rw [← hroot] at hrun
    rw [hnone]
    simp [delete, hrun]

end Nginx.RadixTree
