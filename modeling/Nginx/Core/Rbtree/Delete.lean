import Nginx.Core.Rbtree.DeleteFix

namespace Nginx.Rbtree

open LinkedTree LinkedTree.Linked

variable {s : Ptr} {H₀ H : Nodes} {L : List Ptr} {fs : List (Frame Bool)}

-- The first node of a tree in order is its leftmost one.
theorem min_spec (fuel : Nat) (t : Linked Bool) (h : Holds H₀ L s H fs t) (hne : t ≠ nil)
    (hfuel : t.toList.length ≤ fuel) :
    ∃ gs y c u, t = plug gs (branch .right y c u nil) ∧ min s H fuel (t.ptr s) = some y ∧
      t.toList = y :: (plug gs u).toList := by
  induction fuel generalizing fs t with
  | zero =>
      have hpos := List.length_pos_of_mem (ptr_mem s t hne)
      omega
  | succ fuel ih =>
      obtain ⟨p, c, l, r, rfl⟩ := eq_branch .left t hne
      have hread : H.child .left p = l.ptr s := h.focus.child_eq
      have hp := h.ne_null
      have hdown := holds_down.mp h
      by_cases hl : l = nil
      · subst hl
        refine ⟨[], p, c, r, rfl, ?_, rfl⟩
        simp [min, hread, hp]
      · have hls : l.ptr s ≠ s := by
          rw [ne_eq, ptr_eq_nil_iff s l fun hs => hdown.distinct.split.2.1 (List.mem_append_left _ hs)]
          exact hl
        simp only [toList_branch_left, List.length_append, List.length_cons] at hfuel
        obtain ⟨gs, y, c', u, heq, hrun, hlist⟩ := ih l hdown hl (by omega)
        refine ⟨gs ++ [⟨.left, p, c, r⟩], y, c', u, ?_, ?_, ?_⟩
        · rw [plug_append, ← heq]
          rfl
        · simp [min, hread, hp, hls, hrun]
        · rw [plug_append, plug_cons, plug_nil, toList_branch_left, toList_branch_left, hlist]
          rfl

-- node gives its place, its color and its children to y.
theorem transplant_spec (z y : Ptr) (c : Bool) (l r : Linked Bool)
    (hh : Hole H s (⟨.right, z, c, l⟩ :: fs) (r.ptr s)) (hr : Links H s r)
    (hn : (z :: y :: (l.toList ++ (r.toList ++ outer fs))).Nodup)
    (hs : s ∉ z :: y :: (l.toList ++ (r.toList ++ outer fs)))
    (h0 : 0 ∉ z :: y :: (l.toList ++ (r.toList ++ outer fs))) :
    ∃ H', transplant s H z y = some H' ∧ Focus H' s fs (branch .left y c l r) ∧
      Frozen H H' (y :: (l.toList ++ (r.toList ++ outer fs))) := by
  simp only [List.nodup_cons, List.nodup_append, List.mem_cons, List.mem_append, not_or] at hn hs h0
  obtain ⟨⟨hzy, hzl, hzr, hzo⟩, ⟨hyl, hyr, hyo⟩, hln, ⟨hrn, hon, hro⟩, hlro⟩ := hn
  have hlr : ∀ q ∈ l.toList, q ∉ r.toList := fun q hq hmem => hlro q hq q (.inl hmem) rfl
  have hlo : ∀ q ∈ l.toList, q ∉ outer fs := fun q hq hmem => hlro q hq q (.inr hmem) rfl
  obtain ⟨hlabel, hright, hleft, hup, hl, habove, hhole⟩ := hh
  simp only [Dir.flip] at hleft hright hlabel hup hl
  -- the fields of subst, and the pointer that leads to node
  let H2 := (((H.setChild .left y (l.ptr s)).setChild .right y (r.ptr s)).setParent y (H.parent z)).setLabel
    y (H.label z)
  have hfrozen2 : Frozen H H2 [y] :=
    (((Frozen.refl.setChild (by simp) _ _).setChild (by simp) _ _).setParent (by simp) _).setLabel (by simp) _
  have hhole2 : Hole H2 s fs z :=
    (hfrozen2.agree fun q hq => by simpa using fun heq : q = y => hyo (heq ▸ hq)).hole rfl hhole
  have habove2 : Above H2 z fs := habove.congr (hfrozen2 z (by simpa using hzy)).2.1
  have hreplace := replace_eq .left fs z y hhole2 habove2 hzo (Ne.symm hs.1) (Ne.symm h0.1) h0.2.2.2.2
  let H3 := point H2 fs y
  have hleft3 : H3.child .left y = l.ptr s := by simp [H3, point_child _ _ _ _ hyo, H2]
  have hright3 : H3.child .right y = r.ptr s := by simp [H3, point_child _ _ _ _ hyo, H2]
  obtain ⟨H4, hadopt4, hchild4, hlabel4, hroot4, hup4, hparent4⟩ :=
    adopt_spec H3 l y hs.2.2.1 h0.2.2.1
  obtain ⟨H5, hadopt5, hchild5, hlabel5, hroot5, hup5, hparent5⟩ :=
    adopt_spec H4 r y hs.2.2.2.1 h0.2.2.2.1
  have hother : ∀ (t : Linked Bool) (q : Ptr), q ∉ t.toList → t = nil ∨ q ≠ t.ptr s := by
    intro t q hq
    by_cases hnil : t = nil
    · exact .inl hnil
    · exact .inr fun heq => hq (heq ▸ ptr_mem s t hnil)
  have hparent : ∀ q, (l = nil ∨ q ≠ l.ptr s) → (r = nil ∨ q ≠ r.ptr s) → H5.parent q = H2.parent q := by
    intro q hql hqr
    rw [hparent5 q hqr, hparent4 q hql]
    simp [H3]
  have hlabels : H5.label = H2.label := by rw [hlabel5, hlabel4, point_label]
  have hchild : ∀ e q, q ∉ outer fs → H5.child e q = H2.child e q := by
    intro e q hq
    rw [hchild5, hchild4, point_child _ _ _ _ hq]
  have hlinks : ∀ t : Linked Bool, Links H s t → y ∉ t.toList → (∀ q ∈ t.toList, q ∉ outer fs) →
      (∀ q ∈ t.under, H5.parent q = H2.parent q) → Links H5 s t := by
    intro t ht hyt hto hunder
    refine ht.congr (fun q hq => ?_) (fun e q hq => ?_) (fun q hq => ?_)
    · rw [hlabels]
      exact (hfrozen2 q (by simpa using fun heq : q = y => hyt (heq ▸ hq))).1
    · rw [hchild e q (hto q hq)]
      exact (hfrozen2 q (by simpa using fun heq : q = y => hyt (heq ▸ hq))).2.2 e
    · rw [hunder q hq]
      have hqt := under_subset t q hq
      exact (hfrozen2 q (by simpa using fun heq : q = y => hyt (heq ▸ hqt))).2.1
  refine ⟨H5, ?_, ⟨?_, ?_, fun _ => ?_⟩, ?_⟩
  · have hy0 : y ≠ 0 := Ne.symm h0.2.1
    have hz0 : z ≠ 0 := Ne.symm h0.1
    have hright4 : H4.child .right y = r.ptr s := by rw [hchild4, hright3]
    simp only [transplant, hleft, hright, deref_of_ne, hz0, hy0, ne_eq, not_false_eq_true,
      Option.bind_eq_bind, Option.bind_some]
    simp only [H2, Heap.setChild_parent, Heap.setChild_label] at hreplace ⊢
    rw [hreplace, Option.bind_some]
    simp only [H3, H2] at hleft3 hadopt4
    rw [hleft3, hadopt4, Option.bind_some, hright4, hadopt5]
  · have hagree : Agree H3 H5 (outer fs) := by
      refine ⟨fun q _ => ?_, fun e q _ => ?_, fun q hq => ?_⟩
      · rw [hlabel5, hlabel4]
      · rw [hchild5, hchild4]
      · rw [hparent q (hother l q fun hmem => hlo q hmem hq)
          (hother r q fun hmem => hro q hmem q hq rfl)]
        simp [H3]
    rw [ptr_branch]
    exact hagree.hole (hroot5.trans hroot4) (hhole2.point hon y)
  · rw [links_branch]
    refine ⟨?_, ?_, ?_, ?_, hup5, ?_, ?_⟩
    · rw [hlabels]
      simpa [H2] using hlabel
    · rw [hchild5, hchild4, hleft3]
    · rw [hchild5, hchild4]
      exact hright3
    · intro hne
      rw [hparent5 _ (hother r _ (hlr _ (ptr_mem s l hne))), hup4 hne]
    · refine hlinks l hl hyl hlo fun q hq => hparent q (.inr fun heq => ?_) (hother r q ?_)
      · exact ptr_not_mem_under s l hln hs.2.2.1 (heq ▸ hq)
      · exact hlr q (under_subset l q hq)
    · refine hlinks r hr hyr (fun q hq hmem => hro q hq q hmem rfl) fun q hq =>
        hparent q (hother l q fun hmem => hlr q hmem (under_subset r q hq)) (.inr fun heq => ?_)
      exact ptr_not_mem_under s r hrn hs.2.2.2.1 (heq ▸ hq)
  · rw [ptr_branch]
    refine habove.congr ?_
    rw [hparent y (hother l y hyl) (hother r y hyr)]
    simp [H2]
  · intro q hq
    simp only [List.mem_cons, List.mem_append, not_or] at hq
    obtain ⟨h1, h2, h3⟩ := hfrozen2 q (by simpa using hq.1)
    refine ⟨hlabels ▸ h1, ?_, fun e => ?_⟩
    · rw [hparent q (hother l q hq.2.1) (hother r q hq.2.2.1), h2]
    · rw [hchild e q hq.2.2.2, h3 e]

theorem clear_frozen (z : Ptr) : Frozen H (clear H z) [z] :=
  ((Frozen.refl.setChild (by simp) _ _).setChild (by simp) _ _).setParent (by simp) _

@[simp] theorem clear_root (z : Ptr) : (clear H z).root = H.root := rfl

section Finish

variable {t u : Linked Bool} {z y : Ptr} {ls rs : List Ptr} {d : Dir} {c : Bool} {F F₀ : List (Frame Bool)}

theorem distinct_remove (h : Distinct s t) (hlist : t.toList = ls ++ z :: rs)
    (hnew : u.toList = ls ++ rs) : Distinct s u ∧ z ∉ u.toList := by
  obtain ⟨hn, hs, h0⟩ := h
  rw [hlist] at hn hs h0
  rw [List.nodup_middle, List.nodup_cons] at hn
  simp only [List.mem_append, List.mem_cons, not_or] at hs h0
  refine ⟨⟨hnew ▸ hn.2, ?_, ?_⟩, hnew ▸ hn.1⟩
  · rw [hnew, List.mem_append, not_or]
    exact ⟨hs.1, hs.2.2⟩
  · rw [hnew, List.mem_append, not_or]
    exact ⟨h0.1, h0.2.2⟩

-- The node that left the tree had at most one child: its colors decide what is left to do.
theorem short_of_removed (hrb : (plug F₀ (branch d y c u nil)).RedBlack)
    (hcolors : F₀.map Frame.colors = F.map Frame.colors) :
    (c = true → (plug F u).RedBlack) ∧ (c = false → Short 0 F u) := by
  obtain ⟨n, hn, hheight, hno, hout, hred⟩ := (redBlack_plug _ _).mp hrb
  obtain ⟨m, rfl, hu, hm⟩ := (height_branch _ _ _ _ _ _).mp hn
  obtain rfl : m = 0 := hm
  obtain ⟨h1, h2, h3⟩ := outer_congr F₀ F hcolors
  rw [noRedRed_branch] at hno
  rw [h3] at hheight
  constructor
  · rintro rfl
    rw [redBlack_plug]
    exact ⟨0, hu, hheight, hno.2.1, h2.mp hout, fun _ => (hno.1 rfl).1⟩
  · rintro rfl
    refine ⟨?_, hu, h2.mp hout, hheight⟩
    cases u with
    | nil => trivial
    | node q b v w =>
        have hv := hno.2.1
        exact ⟨fun h => absurd h (by simp), hv.2⟩

-- The end of ngx_rbtree_delete, when node is out of the tree.
theorem finish_spec (fuel : Nat) (h₀ : Valid s H₀ (plug F₀ (branch d y c u nil)))
    (hlist : (plug F₀ (branch d y c u nil)).toList = ls ++ z :: rs)
    (hnew : (plug F u).toList = ls ++ rs) (hcolors : F₀.map Frame.colors = F.map Frame.colors)
    (hfrozen : Frozen H₀ H (s :: (ls ++ z :: rs))) (hfocus : Focus H s F u)
    (hup : Above H (u.ptr s) F) (hne : F ≠ []) (hs : H.label s = false)
    (hfuel : (ls ++ z :: rs).length < fuel) :
    ∃ H' t', (if c then some (clear H z) else deleteFix s fuel (clear H z) (u.ptr s)) = some H' ∧
      Valid s H' t' ∧ t'.toList = ls ++ rs ∧ Frozen H₀ H' (s :: (ls ++ z :: rs)) := by
  obtain ⟨hdist, hz⟩ := distinct_remove h₀.distinct hlist hnew
  have hzs : z ≠ s := h₀.distinct.ne_sentinel (by rw [hlist]; simp)
  have hclear := clear_frozen (H := H) z
  have hfocus' : Focus (clear H z) s F u :=
    (hclear.agree fun q hq => by simpa using fun heq : q = z => hz (heq ▸ hq)).focus rfl hfocus
  have hholds : Holds (clear H z) (ls ++ rs) s (clear H z) F u := by
    refine ⟨hfocus', hdist, hnew, Frozen.refl, ?_, h₀.not_null⟩
    rw [(hclear s (by simpa using hzs.symm)).1]
    exact hs
  have hall : Frozen H₀ (clear H z) (s :: (ls ++ z :: rs)) :=
    hfrozen.trans (hclear.mono (by simp))
  have hsub : ∀ q ∈ ls ++ rs, q ∈ s :: (ls ++ z :: rs) := by
    intro q hq
    simp only [List.mem_cons, List.mem_append] at hq ⊢
    tauto
  obtain ⟨hredCase, hblackCase⟩ := short_of_removed h₀.redBlack hcolors
  cases c with
  | true =>
      have hplug : Holds (clear H z) (ls ++ rs) s (clear H z) [] (plug F u) :=
        (holds_plug F).mpr (by simpa using hholds)
      exact ⟨_, _, rfl, hplug.valid (hredCase rfl), hnew, hall⟩
  | false =>
      have hup' : Above (clear H z) (u.ptr s) F := by
        refine hup.congr (hclear _ ?_).2.1
        rw [List.mem_singleton]
        by_cases hu : u = nil
        · subst hu
          exact hzs.symm
        · exact fun heq => hz ((mem_plug z).mpr (.inl (heq ▸ ptr_mem s u hu)))
      have hlen : F.length < fuel := by
        have h1 := length_le_outer F
        have h2 := (toList_plug_perm F u).length_eq
        rw [hnew] at h2
        simp only [List.length_append, List.length_cons] at h2 hfuel
        omega
      obtain ⟨H', t', hrun, h', hrb⟩ := deleteFix_spec fuel (hblackCase rfl) hup' (fun h => absurd h hne)
        hlen hholds
      refine ⟨H', t', hrun, h'.valid hrb, h'.list, ?_⟩
      exact hall.trans (h'.frozen.mono hsub)

-- A node with at most one child is unlinked itself.
theorem substitute_one (fuel : Nat) (h : Holds H₀ L s H fs (branch d z c u nil))
    (hside : d = .right ∨ u ≠ nil) : substitute fuel s H z = some (z, u.ptr s) := by
  have hchild : H.child d z = u.ptr s := h.focus.child_eq
  have hflip : H.child d.flip z = s := by simpa using h.focus.child_flip_eq
  have hz := h.ne_null
  cases d with
  | right =>
      simp only [Dir.flip] at hflip
      simp [substitute, hchild, hflip, hz]
  | left =>
      have hu : u ≠ nil := hside.resolve_left (by simp)
      have hus : u.ptr s ≠ s := by
        rw [ne_eq, ptr_eq_nil_iff s u fun hs => h.distinct.split.2.1 (List.mem_append_left _ (by simp [hs]))]
        exact hu
      simp only [Dir.flip] at hflip
      simp [substitute, hchild, hflip, hz, hus]

theorem blacken_redBlack {n : Nat} (hno : (blacken t).NoRedRed) (hheight : t.Height n) :
    (blacken t).RedBlack := by
  cases t with
  | nil => exact ⟨rfl, trivial, 0, rfl⟩
  | node p b l r =>
      obtain ⟨m, -, hl, hr⟩ := hheight
      exact ⟨rfl, hno, m + 1, m, rfl, hl, hr⟩

theorem delete_root (fuel : Nat) (h : Valid s H (branch d z c u nil)) (hside : d = .right ∨ u ≠ nil)
    (hlist : (branch d z c u nil).toList = ls ++ z :: rs) (hnew : u.toList = ls ++ rs) :
    ∃ H' t', delete fuel s H z = some H' ∧ Valid s H' t' ∧ t'.toList = ls ++ rs ∧
      Frozen H H' (s :: (ls ++ z :: rs)) := by
  obtain ⟨hdist, hz⟩ := distinct_remove h.distinct hlist hnew
  have hzs : z ≠ s := h.holds.ne_sentinel
  have hroot : z = H.root := by simpa using h.focus.root_eq.symm
  have hptr : u.ptr s ∈ s :: (ls ++ z :: rs) := by
    by_cases hu : u = nil
    · simp [hu]
    · have hmem := ptr_mem s u hu
      rw [hnew, List.mem_append] at hmem
      simp only [List.mem_cons, List.mem_append]
      tauto
  let H1 := (H.setRoot (u.ptr s)).setLabel (u.ptr s) false
  have hfrozen : Frozen H H1 (s :: (ls ++ z :: rs)) :=
    Frozen.setLabel hptr (fun _ _ => ⟨rfl, rfl, fun _ => rfl⟩) false
  have hfocus : Focus H1 s [] (blacken u) := by
    obtain ⟨-, -, -, -, -, hlinks, -⟩ := (links_branch _ _ _ _ _).mp h.focus.links
    have hagree : Agree H (H.setRoot (u.ptr s)) u.toList :=
      ⟨fun _ _ => rfl, fun _ _ _ => rfl, fun _ _ => rfl⟩
    have hu : Focus (H.setRoot (u.ptr s)) s [] u := ⟨rfl, hagree.links hlinks, fun _ => trivial⟩
    cases u with
    | nil => exact ⟨rfl, trivial, fun _ => trivial⟩
    | node q b v w => exact hu.setLabel (d := .left) hdist false
  have hblack : (blacken u).toList = u.toList := by cases u <;> rfl
  have hrb : (plug [] (branch d z c u nil)).RedBlack := h.redBlack
  obtain ⟨hredCase, hblackCase⟩ := short_of_removed hrb (rfl : [].map Frame.colors = [].map Frame.colors)
  obtain rfl : c = false := by simpa using h.redBlack.root
  have hshort := hblackCase rfl
  refine ⟨clear H1 z, blacken u, ?_, ⟨?_, ?_, ?_, ?_, h.not_null⟩, by rw [hblack, hnew], ?_⟩
  · have hu0 : u.ptr s ≠ 0 := (holds_down.mp h.holds).ptr_ne_null
    simp [delete, substitute_one fuel h.holds hside, hroot.symm, hu0, H1]
  · refine ((clear_frozen z).agree fun q hq => ?_).focus rfl hfocus
    rw [plug_nil, hblack] at hq
    simpa using fun heq : q = z => hz (heq ▸ hq)
  · exact hdist.of_toList_eq hblack
  · exact blacken_redBlack hshort.noRedRed hshort.height
  · rw [((clear_frozen z) s (by simpa using hzs.symm)).1]
    simp [H1, h.sentinel]
  · exact hfrozen.trans ((clear_frozen z).mono (by simp))

theorem relink_branch {f : Frame Bool} (h : Holds H₀ L s H (f :: fs) (branch d y c u nil)) (x : Ptr) :
    H.parent y = f.ptr ∧ relink .left H y x = some (point H (f :: fs) x) := by
  have hup : H.parent y = f.ptr := by simpa using h.focus.parent_eq (branch_ne_nil _ _ _ _ _)
  have hhole := h.focus.hole
  have hsib := h.distinct.ptr_not_mem_sib (s := s)
  rw [ptr_branch] at hhole hsib
  exact ⟨hup, relink_eq .left f fs y x hhole hup hsib h.ne_sentinel h.ne_null (holds_down.mpr h).ne_null⟩

theorem splice_frozen (x : Ptr) (hsub : ∀ q ∈ (plug F u).toList, q ∈ L) :
    Frozen H (splice H F (u.ptr s) x) (s :: L) := by
  have hmem : ∀ q, q ∈ u.toList ∨ q ∈ outer F → q ∈ s :: L :=
    fun q hq => List.mem_cons_of_mem s (hsub q ((mem_plug q).mpr hq))
  refine Frozen.splice (fun q hq => hmem q (.inr hq)) ?_
  by_cases hu : u = nil
  · simp [hu]
  · exact hmem _ (.inl (ptr_mem s u hu))

-- Below another node the child takes its place.
theorem delete_one (fuel : Nat) (f : Frame Bool) (h : Valid s H (plug (f :: fs) (branch d z c u nil)))
    (hside : d = .right ∨ u ≠ nil)
    (hlist : (plug (f :: fs) (branch d z c u nil)).toList = ls ++ z :: rs)
    (hnew : (plug (f :: fs) u).toList = ls ++ rs) (hfuel : (ls ++ z :: rs).length < fuel) :
    ∃ H' t', delete fuel s H z = some H' ∧ Valid s H' t' ∧ t'.toList = ls ++ rs ∧
      Frozen H H' (s :: (ls ++ z :: rs)) := by
  have hz := (holds_plug (f :: fs)).mp h.holds
  rw [List.append_nil] at hz
  have hdist := h.distinct
  obtain ⟨hup, hrelink⟩ := relink_branch hz (u.ptr s)
  have hlabel : H.label z = c := hz.focus.label_eq
  have hroot : z ≠ H.root := by simpa using hz.focus.ne_root hdist
  have hu0 : u.ptr s ≠ 0 := (holds_down.mp hz).ptr_ne_null
  obtain ⟨hhole', hlinks'⟩ := hz.focus.splice hdist f.ptr
  have hparent : (splice H (f :: fs) (u.ptr s) f.ptr).parent (u.ptr s) = f.ptr := by simp [splice]
  have hsub : ∀ q ∈ (plug (f :: fs) u).toList, q ∈ ls ++ z :: rs := by
    intro q hq
    rw [hnew, List.mem_append] at hq
    simp only [List.mem_cons, List.mem_append]
    tauto
  obtain ⟨H', t', hrun, hvalid, hlist', hfrozen'⟩ := finish_spec fuel h hlist hnew rfl
    (splice_frozen f.ptr hsub) ⟨hhole', hlinks', fun _ => hparent⟩ hparent (by simp)
    (by simp [splice, h.sentinel]) hfuel
  refine ⟨H', t', ?_, hvalid, hlist', hfrozen'⟩
  rw [← hrun]
  simp [delete, substitute_one fuel hz hside, hroot, hrelink, hup, hz.ne_null, hu0, hlabel, splice]

-- The successor y leaves its place below the right child of node; its child may already name y
-- as its parent.
theorem detach_spec {l : Linked Bool} {cz : Bool} (gs : List (Frame Bool))
    (hy : Holds H₀ L s H (gs ++ ⟨.right, z, cz, l⟩ :: fs) (branch d y c u nil)) :
    ∃ up, H.parent y = up ∧
      relink .left H y (u.ptr s) = some (point H (gs ++ ⟨.right, z, cz, l⟩ :: fs) (u.ptr s)) ∧
      ∃ H', H' = splice H (gs ++ ⟨.right, z, cz, l⟩ :: fs) (u.ptr s) (if up = z then y else up) ∧
        Hole H' s (⟨.right, z, cz, l⟩ :: fs) ((plug gs u).ptr s) ∧ Links H' s (plug gs u) ∧
        Above H' (u.ptr s) (gs ++ ⟨.right, y, cz, l⟩ :: fs) := by
  cases gs with
  | nil =>
      obtain ⟨hup, hrelink⟩ := relink_branch hy (u.ptr s)
      obtain ⟨hhole, hlinks⟩ := hy.focus.splice hy.distinct y
      refine ⟨z, hup, hrelink, _, rfl, ?_, ?_, ?_⟩
      · rw [if_pos rfl]
        exact hhole
      · rw [if_pos rfl]
        exact hlinks
      · simp [splice, Above]
  | cons g gs =>
      obtain ⟨hup, hrelink⟩ := relink_branch hy (u.ptr s)
      obtain ⟨hhole, hlinks⟩ := hy.focus.splice hy.distinct g.ptr
      have hgz : g.ptr ≠ z := by
        have hnodup := (List.nodup_append.mp hy.distinct.split.1).2.1
        have hz : z ∈ g.sib.toList ++ outer (gs ++ ⟨.right, z, cz, l⟩ :: fs) := by
          simp [outer, Frame.toList]
        rw [List.cons_append, outer_cons, List.nodup_cons] at hnodup
        exact fun heq => hnodup.1 (heq ▸ hz)
      have hparent : (splice H (g :: gs ++ ⟨.right, z, cz, l⟩ :: fs) (u.ptr s) g.ptr).parent (u.ptr s) =
          g.ptr := by simp [splice]
      have hfocus := (focus_plug (g :: gs) (⟨.right, z, cz, l⟩ :: fs) u).mpr
        ⟨hhole, hlinks, fun _ => hparent⟩
      refine ⟨g.ptr, hup, hrelink, _, rfl, ?_, ?_, ?_⟩
      · rw [if_neg hgz]
        exact hfocus.hole
      · rw [if_neg hgz]
        exact hfocus.links
      · rw [if_neg hgz]
        exact hparent

theorem substitute_two {l r : Linked Bool} (fuel : Nat) (h : Holds H₀ L s H fs (branch .left z c l r))
    (hl : l ≠ nil) (hr : r ≠ nil) (hfuel : r.toList.length ≤ fuel) :
    ∃ gs y cy u, r = plug gs (branch .right y cy u nil) ∧ r.toList = y :: (plug gs u).toList ∧
      substitute fuel s H z = some (y, u.ptr s) := by
  have hdown : Holds H₀ L s H (⟨.right, z, c, l⟩ :: fs) r := (holds_down.mp h).sibling
  obtain ⟨gs, y, cy, u, heq, hmin, hlist⟩ := min_spec fuel r hdown hr hfuel
  refine ⟨gs, y, cy, u, heq, hlist, ?_⟩
  have hy : Holds H₀ L s H (gs ++ ⟨.right, z, c, l⟩ :: fs) (branch .right y cy u nil) :=
    (holds_plug gs).mp (heq ▸ hdown)
  have hs : ∀ t : Linked Bool, t ≠ nil → (∀ q ∈ t.toList, q ∈ L) → t.ptr s ≠ s := by
    intro t ht hsub heq
    have hmem := hsub _ (ptr_mem s t ht)
    rw [heq, ← h.list] at hmem
    exact h.distinct.sentinel hmem
  have hls : l.ptr s ≠ s := hs l hl fun q hq => by
    rw [← h.list, mem_plug]
    exact .inl (by simp [hq])
  have hrs : r.ptr s ≠ s := hs r hr fun q hq => by
    rw [← h.list, mem_plug]
    exact .inl (by simp [hq])
  have hleft : H.child .left z = l.ptr s := h.focus.child_eq
  have hright : H.child .right z = r.ptr s := h.focus.child_flip_eq
  have hyr : H.child .right y = u.ptr s := hy.focus.child_eq
  have hyl : H.child .left y = s := hy.focus.child_flip_eq
  simp [substitute, hleft, hright, h.ne_null, hls, hrs, hmin, hyr, hyl, hy.ne_null]

-- A node with two children gives its place to its successor.
theorem delete_two {l r : Linked Bool} (fuel : Nat) (h : Valid s H (plug fs (branch .left z c l r)))
    (hl : l ≠ nil) (hr : r ≠ nil) (hfuel : (plug fs (branch .left z c l r)).toList.length < fuel) :
    ∃ H' t' ls rs, delete fuel s H z = some H' ∧ Valid s H' t' ∧
      (plug fs (branch .left z c l r)).toList = ls ++ z :: rs ∧ t'.toList = ls ++ rs ∧
      Frozen H H' (s :: (ls ++ z :: rs)) := by
  have hz := (holds_plug fs).mp h.holds
  rw [List.append_nil] at hz
  have hrlen : r.toList.length ≤ fuel := by
    have hlen := (toList_plug_perm fs (branch .left z c l r)).length_eq
    simp only [toList_branch_left, List.length_append, List.length_cons] at hlen
    omega
  obtain ⟨gs, y, cy, u, heq, hlistr, hsubst⟩ := substitute_two fuel hz hl hr hrlen
  have hy : Holds H _ s H (gs ++ ⟨.right, z, c, l⟩ :: fs) (branch .right y cy u nil) :=
    (holds_plug gs).mp (heq ▸ (holds_down.mp hz).sibling)
  have hplug : plug fs (branch .left z c l r) =
      plug (gs ++ ⟨.right, z, c, l⟩ :: fs) (branch .right y cy u nil) := by
    rw [plug_append, ← heq]
    rfl
  have hlist : (plug fs (branch .left z c l r)).toList =
      (before fs ++ l.toList) ++ z :: (y :: (plug gs u).toList ++ after fs) := by
    rw [toList_plug, toList_branch_left, hlistr]
    simp
  have hnew : (plug (gs ++ ⟨.right, y, c, l⟩ :: fs) u).toList =
      (before fs ++ l.toList) ++ (y :: (plug gs u).toList ++ after fs) := by
    rw [plug_append, plug_cons, toList_plug, toList_branch_right]
    simp
  have hperm : (plug fs (branch .left z c l r)).toList.Perm
      (z :: y :: (l.toList ++ ((plug gs u).toList ++ outer fs))) := by
    refine (toList_plug_perm fs _).trans ?_
    rw [toList_branch_left, hlistr]
    simp only [List.append_assoc, List.cons_append]
    exact List.perm_middle.trans (List.perm_middle.cons z)
  have hdist := h.distinct
  obtain ⟨up, hup, hrelink, H1, hH1, hhole1, hlinks1, habove1⟩ := detach_spec gs hy
  obtain ⟨H2, htransplant, hfocus2, hfrozen2⟩ := transplant_spec z y c l (plug gs u) hhole1 hlinks1
    (hperm.nodup_iff.mp hdist.nodup) (hperm.mem_iff.not.mp hdist.sentinel)
    (hperm.mem_iff.not.mp hdist.null)
  have hs2 := hfrozen2 s fun hs => hdist.sentinel (hperm.mem_iff.mpr (List.mem_cons_of_mem z hs))
  have hfocus : Focus H2 s (gs ++ ⟨.right, y, c, l⟩ :: fs) u :=
    (focus_plug gs (⟨.right, y, c, l⟩ :: fs) u).mp ((focus_down .right y c (plug gs u) l fs).mp hfocus2)
  have habove : Above H2 (u.ptr s) (gs ++ ⟨.right, y, c, l⟩ :: fs) := by
    by_cases hu : u = nil
    · subst hu
      exact habove1.congr hs2.2.1
    · exact hfocus.above hu
  rw [hlist] at hfuel hperm
  rw [hplug] at hlist h hdist
  have hsub : ∀ q ∈ (plug (gs ++ ⟨.right, z, c, l⟩ :: fs) u).toList,
      q ∈ (before fs ++ l.toList) ++ z :: (y :: (plug gs u).toList ++ after fs) := by
    intro q hq
    rw [← hlist, mem_plug, mem_toList_branch]
    rw [mem_plug] at hq
    tauto
  have hfrozen : Frozen H H2 (s :: ((before fs ++ l.toList) ++ z :: (y :: (plug gs u).toList ++ after fs))) := by
    refine Frozen.trans (hH1 ▸ splice_frozen _ hsub) (hfrozen2.mono fun q hq => ?_)
    exact List.mem_cons_of_mem s (hperm.mem_iff.mpr (List.mem_cons_of_mem z hq))
  obtain ⟨H', t', hrun, hvalid, hlist', hfrozen'⟩ := finish_spec fuel h hlist hnew (by simp [Frame.colors])
    hfrozen hfocus habove (by simp) (by rw [hs2.1, hH1]; simp [splice, h.sentinel]) hfuel
  refine ⟨H', t', _, _, ?_, hvalid, hplug ▸ hlist, hlist', hfrozen'⟩
  have hroot : y ≠ H.root := by
    cases gs with
    | nil => simpa using hy.focus.ne_root hy.distinct
    | cons g gs => simpa using hy.focus.ne_root hy.distinct
  have hlabel : H.label y = cy := hy.focus.label_eq
  have hyz : y ≠ z := by
    have hnodup := hperm.nodup_iff.mp (hlist ▸ hdist.nodup)
    rw [List.nodup_cons] at hnodup
    exact fun heq => hnodup.1 (heq ▸ List.mem_cons_self)
  have hu0 : u.ptr s ≠ 0 := (holds_down.mp hy).ptr_ne_null
  have hsplice : (point H (gs ++ ⟨.right, z, c, l⟩ :: fs) (u.ptr s)).setParent (u.ptr s)
      (if up = z then y else up) = H1 := hH1.symm
  rw [← hrun]
  simp [delete, hsubst, hroot, hrelink, hup, hy.ne_null, hu0, hlabel, hyz, hsplice, htransplant]

theorem delete_spec (fuel : Nat) (h : Valid s H t) (hz : z ∈ t.toList) (hfuel : t.toList.length < fuel) :
    ∃ H' t' ls rs, delete fuel s H z = some H' ∧ Valid s H' t' ∧ t.toList = ls ++ z :: rs ∧
      t'.toList = ls ++ rs ∧ Frozen H H' (s :: (ls ++ z :: rs)) := by
  have hone : ∀ fs d c u, t = plug fs (branch d z c u nil) → (d = .right ∨ u ≠ nil) →
      ∃ H' t' ls rs, delete fuel s H z = some H' ∧ Valid s H' t' ∧ t.toList = ls ++ z :: rs ∧
        t'.toList = ls ++ rs ∧ Frozen H H' (s :: (ls ++ z :: rs)) := by
    intro fs d c u ht hside
    obtain ⟨ls, rs, hlist, hnew⟩ : ∃ ls rs, t.toList = ls ++ z :: rs ∧ (plug fs u).toList = ls ++ rs := by
      rw [ht]
      cases d with
      | left => exact ⟨before fs ++ u.toList, after fs, by simp [toList_plug], by simp [toList_plug]⟩
      | right => exact ⟨before fs, u.toList ++ after fs, by simp [toList_plug], by simp [toList_plug]⟩
    rw [hlist] at hfuel
    rw [ht] at h hlist
    cases fs with
    | nil =>
        obtain ⟨H', t', hrun, hvalid, hlist', hfrozen⟩ := delete_root fuel h hside hlist hnew
        exact ⟨H', t', ls, rs, hrun, hvalid, ht ▸ hlist, hlist', hfrozen⟩
    | cons f fs =>
        obtain ⟨H', t', hrun, hvalid, hlist', hfrozen⟩ := delete_one fuel f h hside hlist hnew hfuel
        exact ⟨H', t', ls, rs, hrun, hvalid, ht ▸ hlist, hlist', hfrozen⟩
  obtain ⟨fs, c, l, r, ht⟩ := exists_plug t z hz
  by_cases hl : l = nil
  · exact hone fs .right c r (by rw [ht, hl]; rfl) (.inl rfl)
  · by_cases hr : r = nil
    · exact hone fs .left c l (by rw [ht, hr]) (.inr hl)
    · subst ht
      exact delete_two fuel h hl hr hfuel

end Finish

end Nginx.Rbtree
