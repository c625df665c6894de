import Nginx.Core.Rbtree
import Nginx.Library.RedBlack

namespace Nginx.Rbtree

open LinkedTree LinkedTree.Linked

variable {s : Ptr} {H : Nodes}

-- The comparison of addresses finds the pointer that leads to node.
theorem relink_eq (d : Dir) (f : Frame Bool) (fs : List (Frame Bool)) (x y : Ptr)
    (hh : Hole H s (f :: fs) x) (hup : H.parent x = f.ptr) (hx : x ∉ f.sib.toList) (hs : x ≠ s)
    (h0 : x ≠ 0) (hnull : f.ptr ≠ 0) : relink d H x y = some (point H (f :: fs) y) := by
  have hside := hh.child_iff hx (.inl hs) d
  simp only [relink, hup, deref_of_ne, h0, ne_eq, not_false_eq_true, hnull, hside,
    Option.bind_eq_bind, Option.bind_some, Option.pure_def, point, Option.some.injEq]
  by_cases hd : f.dir = d
  · rw [if_pos hd, hd]
  · rw [if_neg hd, ← Dir.eq_flip_of_ne hd]

theorem replace_eq (d : Dir) (fs : List (Frame Bool)) (x y : Ptr) (hh : Hole H s fs x)
    (habove : Above H x fs) (hx : x ∉ outer fs) (hs : x ≠ s) (h0 : x ≠ 0) (hnull : 0 ∉ outer fs) :
    replace d H x y = some (point H fs y) := by
  unfold replace
  by_cases hroot : x = H.root
  · rw [if_pos hroot, (hh.root_eq_iff hx).mp hroot]
    rfl
  · rw [if_neg hroot]
    cases fs with
    | nil => exact absurd hh.symm hroot
    | cons f fs =>
        simp only [outer_cons, List.mem_cons, List.mem_append, not_or] at hx hnull
        exact relink_eq d f fs x y hh habove hx.2.1 hs h0 (Ne.symm hnull.1)

-- adopt makes x the parent of the subtree t and changes nothing else.
theorem adopt_spec (H : Nodes) (t : Linked Bool) (x : Ptr) (hs : s ∉ t.toList) (h0 : 0 ∉ t.toList) :
    ∃ H', adopt s H (t.ptr s) x = some H' ∧ H'.child = H.child ∧ H'.label = H.label ∧
      H'.root = H.root ∧ Up H' s x t ∧ ∀ q, t = nil ∨ q ≠ t.ptr s → H'.parent q = H.parent q := by
  by_cases ht : t = nil
  · subst ht
    exact ⟨H, by simp [adopt], rfl, rfl, rfl, by simp, fun _ _ => rfl⟩
  · have hmem := ptr_mem s t ht
    have hne : t.ptr s ≠ s := fun h => hs (h ▸ hmem)
    have hnull : t.ptr s ≠ 0 := fun h => h0 (h ▸ hmem)
    refine ⟨H.setParent (t.ptr s) x, by simp [adopt, hne, hnull], rfl, rfl, rfl, fun _ => by simp, ?_⟩
    intro q hq
    simp [hq.resolve_left ht]

theorem rotate_spec (d : Dir) (fs : List (Frame Bool)) (x y : Ptr) (cx cy : Bool) (a b c : Linked Bool)
    (hf : Focus H s fs (branch d x cx a (branch d y cy b c)))
    (hd : Distinct s (plug fs (branch d x cx a (branch d y cy b c)))) :
    ∃ H', rotate d s H x = some H' ∧ H'.label = H.label ∧
      Focus H' s fs (branch d y cy (branch d x cx a b) c) ∧
      Frozen H H' (plug fs (branch d x cx a (branch d y cy b c))).toList := by
  obtain ⟨-, hs, h0⟩ := hd.split
  have hflat : (x :: (a.toList ++ y :: (b.toList ++ c.toList)) ++ outer fs).Nodup :=
    ((((toList_branch_perm d y cy b c).append_left _).cons x).append_right _).nodup_iff.mp hd.node
  simp only [mem_toList_branch, List.mem_append, not_or] at hs h0
  simp only [List.cons_append, List.nodup_cons, List.nodup_append, List.mem_append, List.mem_cons,
    not_or] at hflat
  obtain ⟨⟨⟨hxa, hxy, hxb, hxc⟩, hxo⟩, ⟨-, ⟨⟨hyb, hyc⟩, hbn, -, hbc⟩, ha⟩, hon, ho⟩ := hflat
  have hyo : y ∉ outer fs := fun h => ho y (.inr (.inl rfl)) y h rfl
  have hbo : ∀ q ∈ b.toList, q ∉ outer fs := fun q hq h => ho q (.inr (.inr (.inl hq))) q h rfl
  -- what H holds
  have hx : H.child d.flip x = y := by simpa using hf.child_flip_eq
  have hy : Focus H s (⟨d.flip, x, cx, a⟩ :: fs) (branch d y cy b c) := by
    rw [← focus_down, branch_flip]
    exact hf
  have hb : H.child d y = b.ptr s := hy.child_eq
  obtain ⟨hlx, hcx, -, hua, -, hla, -⟩ := (links_branch d x cx a _).mp hf.links
  obtain ⟨hly, -, hcy, -, huc, hlb, hlc⟩ := (links_branch d y cy b c).mp hy.links
  have hhole := hf.hole
  have habove := hf.above (branch_ne_nil _ _ _ _ _)
  rw [ptr_branch] at hhole habove
  -- the steps up to the pointer that leads to x
  let H1 := H.setChild d.flip x (b.ptr s)
  obtain ⟨H2, hadopt, hchild, hlabel, hroot, hub, hparent⟩ :=
    adopt_spec H1 b x hs.1.2.2.2.1 h0.1.2.2.2.1
  let H3 := H2.setParent y (H2.parent x)
  have hother : ∀ q, q ∉ b.toList → b = nil ∨ q ≠ b.ptr s := by
    intro q hq
    by_cases hnil : b = nil
    · exact .inl hnil
    · exact .inr fun heq => hq (heq ▸ ptr_mem s b hnil)
  have hpx : H2.parent x = H.parent x := hparent x (hother x hxb)
  have hagree3 : Agree H H3 (outer fs) := by
    refine ⟨fun q _ => congrFun hlabel q, fun e q hq => ?_, fun q hq => ?_⟩
    · have hne : q ≠ x := fun h => hxo (h ▸ hq)
      simp [H3, hchild, H1, hne]
    · have hne : q ≠ y := fun h => hyo (h ▸ hq)
      have hqb : q ∉ b.toList := fun h => hbo q h hq
      simp [H3, hne, hparent q (hother q hqb), H1]
  have hhole3 : Hole H3 s fs x := hagree3.hole hroot hhole
  have habove3 : Above H3 x fs := habove.congr (by simp [H3, hxy, hpx])
  have hreplace := replace_eq d fs x y hhole3 habove3 hxo (Ne.symm hs.1.1) (Ne.symm h0.1.1) h0.2
  -- the last two steps
  let H5 := ((point H3 fs y).setChild d y x).setParent x y
  have hrun : rotate d s H x = some H5 := by
    have hx0 : x ≠ 0 := Ne.symm h0.1.1
    have hy0 : y ≠ 0 := Ne.symm h0.1.2.2.1
    simp only [rotate, hx, hb, deref_of_ne, hx0, hy0, ne_eq, not_false_eq_true, Option.bind_eq_bind,
      Option.bind_some, Option.pure_def]
    simp only [H1] at hadopt
    rw [hadopt, Option.bind_some, hreplace, Option.bind_some]
  have hlabel5 : H5.label = H.label := by simp [H5, H3, hlabel, H1]
  have hchild5 : ∀ e q, q ≠ x → q ≠ y → q ∉ outer fs → H5.child e q = H.child e q := by
    intro e q hqx hqy hqo
    simp [H5, hqy, point_child fs y e q hqo, H3, hchild, H1, hqx]
  have hparent5 : ∀ q, q ≠ x → q ≠ y → (b = nil ∨ q ≠ b.ptr s) → H5.parent q = H.parent q := by
    intro q hqx hqy hqb
    simp [H5, hqx, H3, hqy, hparent q hqb, H1]
  have hagree : ∀ L : List Ptr, (∀ q ∈ L, q ≠ x ∧ q ≠ y ∧ q ∉ outer fs ∧ q ∉ b.toList) → Agree H H5 L := by
    intro L hL
    refine ⟨fun q _ => congrFun hlabel5 q, fun e q hq => ?_, fun q hq => ?_⟩
    · obtain ⟨h1, h2, h3, -⟩ := hL q hq
      exact hchild5 e q h1 h2 h3
    · obtain ⟨h1, h2, -, h4⟩ := hL q hq
      exact hparent5 q h1 h2 (hother q h4)
  have hagreea : Agree H H5 a.toList := by
    refine hagree _ fun q hq => ⟨fun h => hxa (h ▸ hq), fun h => ?_, fun h => ?_, fun h => ?_⟩
    · exact ha q hq y (.inl rfl) h
    · exact ho q (.inl hq) q h rfl
    · exact ha q hq q (.inr (.inl h)) rfl
  have hagreec : Agree H H5 c.toList := by
    refine hagree _ fun q hq => ⟨fun h => hxc (h ▸ hq), fun h => hyc (h ▸ hq), fun h => ?_, fun h => ?_⟩
    · exact ho q (.inr (.inr (.inr hq))) q h rfl
    · exact hbc q h q hq rfl
  have hlinksb : Links H5 s b := by
    refine hlb.congr (fun q _ => congrFun hlabel5 q) (fun e q hq => ?_) (fun q hq => ?_)
    · exact hchild5 e q (fun h => hxb (h ▸ hq)) (fun h => hyb (h ▸ hq)) (hbo q hq)
    · have hqb := under_subset b q hq
      have hne : q ≠ b.ptr s :=
        fun h => ptr_not_mem_under s b hbn hs.1.2.2.2.1 (h ▸ hq)
      exact hparent5 q (fun h => hxb (h ▸ hqb)) (fun h => hyb (h ▸ hqb)) (.inr hne)
  refine ⟨H5, hrun, hlabel5, ⟨?_, ?_, fun _ => ?_⟩, ?_⟩
  · have hagree5 : Agree (point H3 fs y) H5 (outer fs) := by
      refine ⟨fun _ _ => rfl, fun e q hq => ?_, fun q hq => ?_⟩
      · have hne : q ≠ y := fun h => hyo (h ▸ hq)
        simp [H5, hne]
      · have hne : q ≠ x := fun h => hxo (h ▸ hq)
        simp [H5, hne]
    rw [ptr_branch]
    exact hagree5.hole rfl (hhole3.point hon y)
  · rw [links_branch, links_branch]
    refine ⟨?_, ?_, ?_, ?_, ?_, ⟨?_, ?_, ?_, ?_, ?_, ?_, hlinksb⟩, ?_⟩
    · rw [hlabel5, hly]
    · simp [H5]
    · simp [H5, point_child fs y _ y hyo, H3, hchild, H1, Ne.symm hxy, hcy]
    · simp [H5]
    · exact hagreec.up huc
    · rw [hlabel5, hlx]
    · simp [H5, hxy, point_child fs y _ x hxo, H3, hchild, H1, hcx]
    · simp [H5, hxy, point_child fs y _ x hxo, H3, hchild, H1]
    · exact hagreea.up hua
    · intro hne
      have hmem := ptr_mem s b hne
      have h1 : b.ptr s ≠ x := fun h => hxb (h ▸ hmem)
      have h2 : b.ptr s ≠ y := fun h => hyb (h ▸ hmem)
      simp [H5, h1, H3, h2, hub hne]
    · exact hagreea.links hla
    · exact hagreec.links hlc
  · rw [ptr_branch]
    exact habove.congr (by simp [H5, Ne.symm hxy, H3, hpx])
  · intro q hq
    simp only [mem_plug, mem_toList_branch, not_or] at hq
    obtain ⟨⟨hqx, -, hqy, hqb, -⟩, hqo⟩ := hq
    exact ⟨congrFun hlabel5 q, hparent5 q hqx hqy (hother q hqb), fun e => hchild5 e q hqx hqy hqo⟩

-- A stage of an operation that began with the heap H₀ and the addresses L in order.
structure Holds (H₀ : Nodes) (L : List Ptr) (s : Ptr) (H : Nodes) (fs : List (Frame Bool))
    (t : Linked Bool) : Prop where
  focus : Focus H s fs t
  distinct : Distinct s (plug fs t)
  list : (plug fs t).toList = L
  frozen : Frozen H₀ H L
  sentinel : H.label s = false
  not_null : s ≠ 0

section Holds

variable {H₀ : Nodes} {L : List Ptr} {fs : List (Frame Bool)} {d : Dir} {p : Ptr} {c : Bool}
  {t u : Linked Bool}

theorem holds_down : Holds H₀ L s H fs (branch d p c t u) ↔ Holds H₀ L s H (⟨d, p, c, u⟩ :: fs) t := by
  constructor
  · rintro ⟨hfocus, hdist, hlist, hfrozen, hs, h0⟩
    exact ⟨(focus_down d p c t u fs).mp hfocus, hdist, hlist, hfrozen, hs, h0⟩
  · rintro ⟨hfocus, hdist, hlist, hfrozen, hs, h0⟩
    exact ⟨(focus_down d p c t u fs).mpr hfocus, hdist, hlist, hfrozen, hs, h0⟩

theorem Holds.sibling (h : Holds H₀ L s H (⟨d, p, c, u⟩ :: fs) t) :
    Holds H₀ L s H (⟨d.flip, p, c, t⟩ :: fs) u := by
  rw [← holds_down, branch_flip, holds_down]
  exact h

theorem holds_plug (gs : List (Frame Bool)) :
    Holds H₀ L s H fs (plug gs t) ↔ Holds H₀ L s H (gs ++ fs) t := by
  constructor
  · rintro ⟨hfocus, hdist, hlist, hfrozen, hs, h0⟩
    rw [← plug_append] at hdist hlist
    exact ⟨(focus_plug gs fs t).mp hfocus, hdist, hlist, hfrozen, hs, h0⟩
  · rintro ⟨hfocus, hdist, hlist, hfrozen, hs, h0⟩
    rw [plug_append] at hdist hlist
    exact ⟨(focus_plug gs fs t).mpr hfocus, hdist, hlist, hfrozen, hs, h0⟩

theorem Holds.mem (h : Holds H₀ L s H fs (branch d p c t u)) : p ∈ L := by
  rw [← h.list, mem_plug]
  exact .inl (by simp)

theorem Holds.ne_null (h : Holds H₀ L s H fs (branch d p c t u)) : p ≠ 0 :=
  h.distinct.ne_null (h.list.symm ▸ h.mem)

theorem Holds.ne_sentinel (h : Holds H₀ L s H fs (branch d p c t u)) : p ≠ s :=
  h.distinct.ne_sentinel (h.list.symm ▸ h.mem)

-- The color the code reads at the address of a subtree, which may be the sentinel.
theorem Holds.label_ptr (h : Holds H₀ L s H fs t) : H.label (t.ptr s) = t.red := by
  cases t with
  | nil => exact h.sentinel
  | node q c l r => exact h.focus.links.1

theorem Holds.ptr_ne_null (h : Holds H₀ L s H fs t) : t.ptr s ≠ 0 := by
  by_cases ht : t = nil
  · rw [ht, ptr_nil]
    exact h.not_null
  · obtain ⟨p, c, u, v, rfl⟩ := eq_branch .left t ht
    rw [ptr_branch]
    exact h.ne_null

theorem Holds.setLabel (h : Holds H₀ L s H fs (branch d p c t u)) (b : Bool) :
    Holds H₀ L s (H.setLabel p b) fs (branch d p b t u) := by
  have heq : (plug fs (branch d p b t u)).toList = (plug fs (branch d p c t u)).toList := by
    cases d <;> simp [toList_plug]
  refine ⟨h.focus.setLabel h.distinct b, h.distinct.of_toList_eq heq, heq.trans h.list, ?_, ?_, h.not_null⟩
  · refine h.frozen.trans fun q hq => ⟨?_, rfl, fun _ => rfl⟩
    have hne : q ≠ p := fun heq => hq (heq ▸ h.mem)
    simp [hne]
  · simp [Ne.symm h.ne_sentinel, h.sentinel]

theorem Holds.rotate {x y : Ptr} {cx cy : Bool} {a b : Linked Bool}
    (h : Holds H₀ L s H fs (branch d x cx a (branch d y cy b t))) :
    ∃ H', rotate d s H x = some H' ∧ H'.label = H.label ∧
      Holds H₀ L s H' fs (branch d y cy (branch d x cx a b) t) := by
  obtain ⟨H', hrun, hlabel, hfocus, hfrozen⟩ := rotate_spec d fs x y cx cy a b t h.focus h.distinct
  have heq : (plug fs (branch d y cy (branch d x cx a b) t)).toList =
      (plug fs (branch d x cx a (branch d y cy b t))).toList := by
    cases d <;> simp [toList_plug]
  exact ⟨H', hrun, hlabel, hfocus, h.distinct.of_toList_eq heq, heq.trans h.list,
    h.frozen.trans (h.list ▸ hfrozen), hlabel ▸ h.sentinel, h.not_null⟩

end Holds

-- The heap holds a red-black tree with its black sentinel.
structure Valid (s : Ptr) (H : Nodes) (t : Linked Bool) : Prop where
  focus : Focus H s [] t
  distinct : Distinct s t
  redBlack : t.RedBlack
  sentinel : H.label s = false
  not_null : s ≠ 0

theorem Valid.holds {t : Linked Bool} (h : Valid s H t) : Holds H t.toList s H [] t :=
  ⟨h.focus, h.distinct, rfl, fun _ _ => ⟨rfl, rfl, fun _ => rfl⟩, h.sentinel, h.not_null⟩

-- ngx_rbt_black(*root)
theorem Holds.blacken {H₀ : Nodes} {L : List Ptr} {t : Linked Bool} (h : Holds H₀ L s H [] t)
    (hne : t ≠ nil) (hno : t.NoRedRed) (hheight : ∃ n, t.Height n) :
    H.root ≠ 0 ∧ ∃ t', Holds H₀ L s (H.setLabel H.root false) [] t' ∧ t'.RedBlack := by
  obtain ⟨p, c, u, v, rfl⟩ := eq_branch .left t hne
  obtain ⟨n, hn⟩ := hheight
  obtain ⟨m, -, hu, hv⟩ := (height_branch _ _ _ _ _ _).mp hn
  rw [noRedRed_branch] at hno
  have hroot : H.root = p := by simpa using h.focus.root_eq
  rw [hroot]
  refine ⟨h.ne_null, _, h.setLabel false, by simp, ?_, m + 1, by simp [hu, hv]⟩
  rw [noRedRed_branch]
  exact ⟨by simp, hno.2⟩

theorem Holds.valid {H₀ : Nodes} {L : List Ptr} {t : Linked Bool} (h : Holds H₀ L s H [] t)
    (hrb : t.RedBlack) : Valid s H t := ⟨h.focus, h.distinct, hrb, h.sentinel, h.not_null⟩

open LinkedTree

-- The loop of the lookup functions: order compares the wanted key with the key of a node. The
-- sentinel is returned when there is no such node.
def search (order : Ptr → Ordering) (s : Ptr) (H : Nodes) : Nat → Ptr → Option Ptr
  | 0, _ => none
  | n + 1, p =>
      if p = s then some s
      else do
        match ← deref p (order p) with
        | .lt => search order s H n (H.child .left p)
        | .gt => search order s H n (H.child .right p)
        | .eq => return p

open Linked

variable {s : Ptr} {H : Nodes}

-- The wanted key lies below the nodes of a suffix of the tree and above those of a prefix.
def Ordered (order : Ptr → Ordering) (t : Linked Bool) : Prop :=
  t.toList.Pairwise fun p q => (order p = .lt → order q = .lt) ∧ (order q = .gt → order p = .gt)

theorem search_tree (order : Ptr → Ordering) (fuel : Nat) (t : Linked Bool) (hl : Links H s t)
    (hs : s ∉ t.toList) (h0 : 0 ∉ t.toList) (hord : Ordered order t) (hfuel : t.toList.length < fuel) :
    ∃ p, search order s H fuel (t.ptr s) = some p ∧
      ((p ∈ t.toList ∧ order p = .eq) ∨ (p = s ∧ ∀ q ∈ t.toList, order q ≠ .eq)) := by
  induction t generalizing fuel with
  | nil =>
      obtain ⟨fuel, rfl⟩ : ∃ k, fuel = k + 1 := ⟨fuel - 1, by omega⟩
      exact ⟨s, by simp [search], .inr ⟨rfl, by simp⟩⟩
  | node p c l r ihl ihr =>
      obtain ⟨fuel, rfl⟩ : ∃ k, fuel = k + 1 := ⟨fuel - 1, by omega⟩
      obtain ⟨-, hreadl, hreadr, -, -, hll, hlr⟩ := hl
      simp only [toList_node, List.mem_append, List.mem_cons, not_or, List.length_append,
        List.length_cons] at hs h0 hfuel
      simp only [Ordered, toList_node, List.pairwise_append, List.pairwise_cons] at hord
      obtain ⟨hordl, ⟨hpr, hordr⟩, hlp⟩ := hord
      have hps : p ≠ s := Ne.symm hs.2.1
      have hp0 : p ≠ 0 := Ne.symm h0.2.1
      cases ho : order p with
      | lt =>
          obtain ⟨q, hrun, hq⟩ := ihl fuel hll hs.1 h0.1 hordl (by omega)
          refine ⟨q, by simp [search, hps, hp0, ho, hreadl, hrun], ?_⟩
          rcases hq with ⟨hmem, heq⟩ | ⟨rfl, hnone⟩
          · exact .inl ⟨by simp [hmem], heq⟩
          · refine .inr ⟨rfl, fun q hq => ?_⟩
            simp only [toList_node, List.mem_append, List.mem_cons] at hq
            rcases hq with hq | rfl | hq
            · exact hnone q hq
            · simp [ho]
            · simp [(hpr q hq).1 ho]
      | gt =>
          obtain ⟨q, hrun, hq⟩ := ihr fuel hlr hs.2.2 h0.2.2 hordr (by omega)
          refine ⟨q, by simp [search, hps, hp0, ho, hreadr, hrun], ?_⟩
          rcases hq with ⟨hmem, heq⟩ | ⟨rfl, hnone⟩
          · exact .inl ⟨by simp [hmem], heq⟩
          · refine .inr ⟨rfl, fun q hq => ?_⟩
            simp only [toList_node, List.mem_append, List.mem_cons] at hq
            rcases hq with hq | rfl | hq
            · simp [(hlp q hq p (by simp)).2 ho]
            · simp [ho]
            · exact hnone q hq
      | eq => exact ⟨p, by simp [search, hps, hp0, ho], .inl ⟨by simp, ho⟩⟩

theorem search_spec (order : Ptr → Ordering) (fuel : Nat) {t : Linked Bool} (h : Valid s H t)
    (hord : Ordered order t) (hfuel : t.toList.length < fuel) :
    ∃ p, search order s H fuel H.root = some p ∧
      ((p ∈ t.toList ∧ order p = .eq) ∨ (p = s ∧ ∀ q ∈ t.toList, order q ≠ .eq)) := by
  rw [h.focus.root_eq]
  exact search_tree order fuel t h.focus.links h.distinct.sentinel h.distinct.null hord hfuel

end Nginx.Rbtree
