import Nginx.Core.Rbtree.Rotate

namespace Nginx.Rbtree

open LinkedTree LinkedTree.Linked

variable {s : Ptr} {H₀ H : Nodes} {L : List Ptr} {fs : List (Frame Bool)}

section Fix

variable {d₀ d₁ d₂ : Dir} {x p g : Ptr} {l r u₁ u₂ : Linked Bool}

-- The parent is red and below a grandparent on the side d₂.
theorem insertRound_red (q : Ptr) (q₁ q₂ : Linked Bool)
    (h : Holds H₀ L s H (⟨d₁, p, true, u₁⟩ :: ⟨d₂, g, false, branch .left q true q₁ q₂⟩ :: fs)
      (branch d₀ x true l r)) :
    ∃ H', insertRound d₂ s H x p g = some (H', g) ∧ Holds H₀ L s H' fs
      (branch d₂ g true (branch d₁ p false (branch d₀ x true l r) u₁) (branch .left q false q₁ q₂)) := by
  have hparent := holds_down.mpr h
  have hgrand := holds_down.mpr hparent
  have huncle := hparent.sibling
  have h1 := (hparent.setLabel false).sibling
  have h2 := (h1.setLabel false).sibling
  rw [Dir.flip_flip] at h2
  have h3 := (holds_down.mpr h2).setLabel true
  refine ⟨_, ?_, h3⟩
  have hq : H.child d₂.flip g = q := by simpa using hgrand.focus.child_flip_eq
  have hqred : H.label q = true := by simpa using huncle.label_ptr
  simp [insertRound, hq, hqred, hgrand.ne_null, huncle.ne_null]

-- The end of a round with a black uncle u₂.
theorem lift_spec (t : Linked Bool) (hx : x = t.ptr s) (hne : t ≠ nil)
    (h : Holds H₀ L s H (⟨d₂, p, true, u₁⟩ :: ⟨d₂, g, false, u₂⟩ :: fs) t) :
    ∃ H', lift d₂ s H x = some H' ∧
      Holds H₀ L s H' fs (branch d₂ p false t (branch d₂ g true u₁ u₂)) := by
  have hparent := holds_down.mpr h
  have hgrand := holds_down.mpr hparent
  have h1 := hparent.setLabel false
  have h2 := (holds_down.mpr h1).setLabel true
  rw [← branch_flip d₂ g, ← branch_flip d₂ p] at h2
  obtain ⟨H', hrun, -, h3⟩ := h2.rotate
  rw [branch_flip, branch_flip] at h3
  refine ⟨H', ?_, h3⟩
  have hx0 : x ≠ 0 := by
    obtain ⟨q, c, a, b, rfl⟩ := eq_branch .left t hne
    rw [hx, ptr_branch]
    exact h.ne_null
  have hup : H.parent x = p := hx ▸ h.focus.parent_eq hne
  have htop : H.parent p = g := by simpa using hparent.focus.parent_eq (branch_ne_nil _ _ _ _ _)
  simp [lift, hup, htop, hx0, hparent.ne_null, hgrand.ne_null, hrun]

-- Afterwards node is on the outer side of its parent.
theorem straighten_outer (h : Holds H₀ L s H (⟨d₂, p, true, u₁⟩ :: fs) (branch d₀ x true l r)) :
    straighten d₂ s H x p = some (H, x) := by
  have hparent := holds_down.mpr h
  have hinner : x ≠ H.child d₂.flip p := by
    have hiff := h.focus.side_iff h.distinct (.inl (branch_ne_nil _ _ _ _ _)) d₂.flip
    rw [ptr_branch] at hiff
    rw [ne_eq, hiff]
    simp
  simp [straighten, hparent.ne_null, hinner]

theorem straighten_inner (a b : Linked Bool)
    (h : Holds H₀ L s H (⟨d₂.flip, p, true, u₁⟩ :: fs) (branch d₂ x true a b)) :
    ∃ H', straighten d₂ s H x p = some (H', p) ∧
      Holds H₀ L s H' (⟨d₂, x, true, b⟩ :: fs) (branch d₂ p true u₁ a) := by
  have hparent := holds_down.mpr h
  have hinner : H.child d₂.flip p = x := by simpa using hparent.focus.child_eq
  have hp0 := hparent.ne_null
  rw [branch_flip] at hparent
  obtain ⟨H', hrun, -, h1⟩ := hparent.rotate
  exact ⟨H', by simp [straighten, hp0, hinner, hrun], holds_down.mp h1⟩

-- A subtree that any parent accepts.
structure Clean (n : Nat) (t : Linked Bool) : Prop where
  red : t.red = false
  noRedRed : t.NoRedRed
  height : t.Height n

theorem Clean.branch_red {n : Nat} {d : Dir} {q : Ptr} {t u : Linked Bool} (ht : Clean n t)
    (hu : Clean n u) : (branch d q true t u).NoRedRed ∧ (branch d q true t u).Height n := by
  rw [noRedRed_branch, height_branch_red]
  exact ⟨⟨fun _ => ⟨ht.red, hu.red⟩, ht.noRedRed, hu.noRedRed⟩, ht.height, hu.height⟩

theorem Clean.branch_black {n : Nat} {d : Dir} {q : Ptr} {t u : Linked Bool}
    (ht : t.NoRedRed ∧ t.Height n) (hu : u.NoRedRed ∧ u.Height n) :
    Clean (n + 1) (branch d q false t u) := by
  refine ⟨red_branch _ _ _ _ _, ?_, (height_branch_black _ _ _ _ _).mpr ⟨ht.2, hu.2⟩⟩
  rw [noRedRed_branch]
  exact ⟨fun h => absurd h (by decide), ht.1, hu.1⟩

-- A black uncle ends the repair: node keeps its place below a black parent z.
theorem insertRound_black (n : Nat) (hu : u₂.red = false) (hl : Clean n l) (hr : Clean n r)
    (hu₁ : Clean n u₁)
    (h : Holds H₀ L s H (⟨d₁, p, true, u₁⟩ :: ⟨d₂, g, false, u₂⟩ :: fs) (branch d₀ x true l r)) :
    ∃ H' y z a b c, insertRound d₂ s H x p g = some (H', y) ∧ Clean n a ∧ Clean n b ∧ Clean n c ∧
      Holds H₀ L s H' (⟨d₂, z, false, branch d₂ g true c u₂⟩ :: fs) (branch d₂ y true a b) := by
  have hparent := holds_down.mpr h
  have hgrand := holds_down.mpr hparent
  have huncle : H.label (u₂.ptr s) = false := hparent.sibling.label_ptr.trans hu
  have huncle0 := hparent.sibling.ptr_ne_null
  have hread : H.child d₂.flip g = u₂.ptr s := hgrand.focus.child_flip_eq
  obtain ⟨a, b, hab, ha, hb⟩ : ∃ a b, branch d₀ x true l r = branch d₂ x true a b ∧
      Clean n a ∧ Clean n b := by
    by_cases hd : d₀ = d₂
    · exact ⟨l, r, by rw [hd], hl, hr⟩
    · exact ⟨r, l, by rw [Dir.eq_flip_of_ne hd, branch_flip], hr, hl⟩
  rw [hab] at h
  by_cases hd : d₁ = d₂
  · subst hd
    obtain ⟨H', hlift, h'⟩ := lift_spec _ (ptr_branch s _ _ _ _ _).symm (branch_ne_nil _ _ _ _ _) h
    refine ⟨H', x, p, a, b, u₁, ?_, ha, hb, hu₁, holds_down.mp h'⟩
    simp [insertRound, hread, hgrand.ne_null, huncle, huncle0, straighten_outer h, hlift]
  · obtain rfl := Dir.eq_flip_of_ne hd
    obtain ⟨H₁, hstr, h₁⟩ := straighten_inner a b h
    obtain ⟨H', hlift, h'⟩ := lift_spec _ (ptr_branch s _ _ _ _ _).symm (branch_ne_nil _ _ _ _ _) h₁
    refine ⟨H', p, x, u₁, a, b, ?_, hu₁, ha, hb, holds_down.mp h'⟩
    simp [insertRound, hread, hgrand.ne_null, huncle, huncle0, hstr, hlift]

theorem insertFix_root (fuel : Nat) (h : Holds H₀ L s H [] (branch d₀ x true l r)) :
    insertFix s (fuel + 1) H x = some H := by
  have hroot : x = H.root := by simpa using h.focus.root_eq.symm
  simp [insertFix, hroot]

-- Below another node the loop looks at the color of the parent.
theorem insertFix_step (fuel : Nat) (f : Frame Bool) (h : Holds H₀ L s H (f :: fs) (branch d₀ x true l r)) :
    insertFix s (fuel + 1) H x =
      if f.label then do
        let grand ← deref f.ptr (H.parent f.ptr)
        let left ← deref grand (H.child .left grand)
        let (H, y) ← insertRound (if f.ptr = left then .left else .right) s H x f.ptr grand
        insertFix s fuel H y
      else some H := by
  have hroot : x ≠ H.root := by simpa using h.focus.ne_root h.distinct
  have hup : H.parent x = f.ptr := by simpa using h.focus.parent_eq (branch_ne_nil _ _ _ _ _)
  have hparent := holds_down.mpr h
  have hlabel : H.label f.ptr = f.label := by simpa using hparent.label_ptr
  cases hf : f.label <;> simp [insertFix, hroot, hup, h.ne_null, hparent.ne_null, hlabel, hf]

-- The repair keeps the order and ends with a tree whose root may still be red. Two frames are
-- left behind in each round with a red uncle.
theorem insertFix_spec (fuel n : Nat) (hl : Clean n l) (hr : Clean n r) (hout : OuterNoRedRed fs)
    (hheight : OuterHeight fs n) (hfuel : fs.length < fuel)
    (h : Holds H₀ L s H fs (branch d₀ x true l r)) :
    ∃ H' t, insertFix s fuel H x = some H' ∧ Holds H₀ L s H' [] t ∧ t.NoRedRed ∧ ∃ N, t.Height N := by
  induction fuel generalizing H fs d₀ x l r n with
  | zero => omega
  | succ fuel ih =>
      obtain ⟨hno, hhx⟩ := hl.branch_red hr (d := d₀) (q := x)
      have hall : ∃ N, (plug fs (branch d₀ x true l r)).Height N := (height_plug _ _).mpr ⟨n, hhx, hheight⟩
      have hplug : Holds H₀ L s H [] (plug fs (branch d₀ x true l r)) := (holds_plug fs).mpr (by simpa using h)
      cases fs with
      | nil => exact ⟨H, _, insertFix_root fuel h, hplug, hno, hall⟩
      | cons f fs =>
          rw [insertFix_step fuel f h]
          obtain ⟨d₁, p, c, u₁⟩ := f
          cases c with
          | false =>
              have hcolors := (noRedRed_plug (⟨d₁, p, false, u₁⟩ :: fs) (branch d₀ x true l r)).mpr
                ⟨hno, hout, by simp [outerRed]⟩
              exact ⟨H, _, rfl, hplug, hcolors.1, hall⟩
          | true =>
              obtain ⟨hred, hu₁, hout⟩ := hout
              obtain ⟨hhu₁, hheight⟩ := hheight
              obtain ⟨hu₁red, houter⟩ := hred rfl
              have hparent := holds_down.mpr h
              cases fs with
              | nil => cases houter
              | cons f fs =>
                  obtain ⟨d₂, g, c, u₂⟩ := f
                  obtain rfl : c = false := houter
                  obtain ⟨-, hu₂, hout⟩ := hout
                  obtain ⟨hhu₂, hheight⟩ := hheight
                  have hgrand := holds_down.mpr hparent
                  have hup : H.parent p = g := by
                    simpa using hparent.focus.parent_eq (branch_ne_nil _ _ _ _ _)
                  have hside : (if p = H.child .left g then Dir.left else Dir.right) = d₂ := by
                    simpa using hparent.focus.side_eq hparent.distinct (.inl (branch_ne_nil _ _ _ _ _))
                  simp only [hup, deref_of_ne, hparent.ne_null, hgrand.ne_null, hside, ne_eq,
                    not_false_eq_true, Option.bind_eq_bind, Option.bind_some, if_true]
                  simp only [weight_true, Nat.add_zero, weight_false, List.length_cons] at hheight hhu₂ hfuel
                  have hclean : Clean n u₁ := ⟨hu₁red, hu₁, hhu₁⟩
                  by_cases huncle : u₂.red = true
                  · obtain ⟨q, c, q₁, q₂, rfl⟩ := eq_branch .left u₂ (by rintro rfl; cases huncle)
                    obtain rfl : c = true := by simpa using huncle
                    obtain ⟨H', hround, h'⟩ := insertRound_red q q₁ q₂ h
                    rw [hround, Option.bind_some]
                    rw [noRedRed_branch] at hu₂
                    rw [height_branch_red] at hhu₂
                    exact ih (n + 1) (.branch_black ⟨hno, hhx⟩ ⟨hu₁, hhu₁⟩)
                      (.branch_black ⟨hu₂.2.1, hhu₂.1⟩ ⟨hu₂.2.2, hhu₂.2⟩) hout hheight (by omega) h'
                  · have hblack : u₂.red = false := by simpa using huncle
                    obtain ⟨H', y, z, a, b, c, hround, ha, hb, hc, h'⟩ :=
                      insertRound_black n hblack hl hr hclean h
                    rw [hround, Option.bind_some]
                    obtain ⟨hc₁, hc₂⟩ := hc.branch_red ⟨hblack, hu₂, hhu₂⟩ (d := d₂) (q := g)
                    have hout' : OuterNoRedRed (⟨d₂, z, false, branch d₂ g true c u₂⟩ :: fs) :=
                      ⟨by simp, hc₁, hout⟩
                    have hheight' : OuterHeight (⟨d₂, z, false, branch d₂ g true c u₂⟩ :: fs) n :=
                      ⟨hc₂, hheight⟩
                    exact ih n ha hb hout' hheight' (by simp only [List.length_cons]; omega) h'

end Fix

-- One step of the search keeps the nodes it will be inserted behind and in front of apart.
theorem descend_frame (goLeft : Ptr → Bool) (p : Ptr) (c : Bool) (l r : Linked Bool)
    (hmono : (node p c l r).toList.Pairwise fun q q' => goLeft q = true → goLeft q' = true)
    (hbefore : ∀ q ∈ before fs, goLeft q = false) (hafter : ∀ q ∈ after fs, goLeft q = true) :
    ∃ d t u, node p c l r = branch d p c t u ∧ d = (if goLeft p then .left else .right) ∧
      t.toList.Pairwise (fun q q' => goLeft q = true → goLeft q' = true) ∧
      (∀ q ∈ before (⟨d, p, c, u⟩ :: fs), goLeft q = false) ∧
      ∀ q ∈ after (⟨d, p, c, u⟩ :: fs), goLeft q = true := by
  obtain ⟨hright, hleft⟩ := gap_of_monotone goLeft p c l r hmono
  simp only [toList_node, List.pairwise_append, List.pairwise_cons] at hmono
  cases hgo : goLeft p with
  | true =>
      refine ⟨.left, l, r, rfl, rfl, hmono.1, by simpa [before] using hbefore, ?_⟩
      intro q hq
      simp only [after, List.mem_append, List.mem_cons] at hq
      rcases hq with (rfl | hq) | hq
      · exact hgo
      · exact hright hgo q hq
      · exact hafter q hq
  | false =>
      refine ⟨.right, r, l, rfl, rfl, hmono.2.1.2, ?_, by simpa [after] using hafter⟩
      intro q hq
      simp only [before, List.mem_append, List.mem_cons, List.not_mem_nil, or_false] at hq
      rcases hq with hq | hq | rfl
      · exact hbefore q hq
      · exact hleft hgo q hq
      · exact hgo

theorem descend_spec (goLeft : Ptr → Bool) (fuel : Nat) (fs : List (Frame Bool)) (t : Linked Bool)
    (h : Holds H₀ L s H fs t) (hne : t ≠ nil)
    (hmono : t.toList.Pairwise fun q q' => goLeft q = true → goLeft q' = true)
    (hbefore : ∀ q ∈ before fs, goLeft q = false) (hafter : ∀ q ∈ after fs, goLeft q = true)
    (hfuel : t.toList.length ≤ fuel) :
    ∃ f gs, descend goLeft s H fuel (t.ptr s) = some (f.ptr, f.dir) ∧ Holds H₀ L s H (f :: gs) nil ∧
      plug (f :: gs) nil = plug fs t ∧ (∀ q ∈ before (f :: gs), goLeft q = false) ∧
      ∀ q ∈ after (f :: gs), goLeft q = true := by
  induction fuel generalizing fs t with
  | zero =>
      have := List.length_pos_of_mem (ptr_mem s t hne)
      omega
  | succ fuel ih =>
      cases t with
      | nil => exact absurd rfl hne
      | node p c l r =>
          obtain ⟨d, t, u, heq, hd, hmono', hbefore', hafter'⟩ :=
            descend_frame goLeft p c l r hmono hbefore hafter
          rw [heq] at h ⊢
          have hp : p ≠ 0 := h.ne_null
          have hread : H.child d p = t.ptr s := h.focus.child_eq
          have hdown := holds_down.mp h
          rw [ptr_branch]
          by_cases hnil : t = nil
          · subst hnil
            exact ⟨_, fs, by simp [descend, ← hd, hread, hp], hdown, rfl, hbefore', hafter'⟩
          · have hts : t.ptr s ≠ s := by
              obtain ⟨q, a, v, w, rfl⟩ := eq_branch .left t hnil
              rw [ptr_branch]
              exact hdown.ne_sentinel
            have hlen : t.toList.length ≤ fuel := by
              have := congrArg (fun t => t.toList.length) heq
              simp only [(toList_branch_perm d p c t u).length_eq, List.length_cons,
                List.length_append] at this
              omega
            obtain ⟨f, gs, hrun, hrest⟩ := ih _ t hdown hnil hmono' hbefore' hafter' hlen
            exact ⟨f, gs, by simp [descend, ← hd, hread, hp, hts, hrun], hrest⟩

-- A new red leaf.
theorem attach_spec (x : Ptr) (f : Frame Bool) (h : Holds H₀ L s H (f :: fs) nil) (hx : x ∉ L)
    (hxs : x ≠ s) (hx0 : x ≠ 0) :
    ∃ H', attach s H f.ptr f.dir x = some H' ∧
      Holds H₀ (before (f :: fs) ++ x :: after (f :: fs)) s H' (f :: fs) (branch .left x true nil nil) := by
  obtain ⟨d, p, c, u⟩ := f
  have hp : p ≠ 0 := (holds_down.mpr h).ne_null
  have hlist := h.list
  have hnew : (plug (⟨d, p, c, u⟩ :: fs) (branch .left x true nil nil)).toList =
      before (⟨d, p, c, u⟩ :: fs) ++ x :: after (⟨d, p, c, u⟩ :: fs) := by
    rw [toList_plug]
    rfl
  rw [toList_plug, toList_nil, List.nil_append] at hlist
  have hmem : ∀ q, q ∈ before (⟨d, p, c, u⟩ :: fs) ++ x :: after (⟨d, p, c, u⟩ :: fs) ↔ q = x ∨ q ∈ L := by
    intro q
    rw [← hlist]
    simp only [List.mem_append, List.mem_cons]
    tauto
  refine ⟨leafAt H s d p x true, by simp [attach, hp, hx0, leafAt],
    h.focus.leafAt h.distinct (h.list.symm ▸ hx) true, ?_, hnew, ?_, ?_, h.not_null⟩
  · have hdist := h.distinct
    refine ⟨?_, ?_, ?_⟩
    · rw [hnew]
      have hn : (x :: L).Nodup := List.nodup_cons.mpr ⟨hx, h.list ▸ hdist.nodup⟩
      rw [← hlist] at hn
      exact (List.perm_middle.nodup_iff).mpr hn
    · rw [hnew, hmem]
      exact fun hs => hs.elim (fun heq => hxs heq.symm) fun hs => hdist.sentinel (h.list.symm ▸ hs)
    · rw [hnew, hmem]
      exact fun h0 => h0.elim (fun heq => hx0 heq.symm) fun h0 => hdist.null (h.list.symm ▸ h0)
  · intro q hq
    rw [hmem, not_or] at hq
    have hqp : q ≠ p := by
      rintro rfl
      exact hq.2 (h.list ▸ (mem_plug q).mpr (.inr (by simp)))
    obtain ⟨h1, h2, h3⟩ := h.frozen q hq.2
    refine ⟨?_, ?_, fun e => ?_⟩
    · simpa [leafAt, hq.1] using h1
    · simpa [leafAt, hq.1] using h2
    · simpa [leafAt, hq.1, hqp] using h3 e
  · simpa [leafAt, Ne.symm hxs] using h.sentinel

theorem root_eq_sentinel {t : Linked Bool} (h : Valid s H t) : H.root = s ↔ t = nil := by
  rw [h.focus.root_eq, ptr_eq_nil_iff s t h.distinct.sentinel]

-- The first node becomes a black root.
theorem insert_empty (callback : Nat → Ptr → Nodes → Ptr → Ptr → Option Nodes) (fuel : Nat) (x : Ptr)
    (h : Valid s H nil) (hxs : x ≠ s) (hx0 : x ≠ 0) :
    ∃ H', insert callback fuel s H x = some H' ∧ Valid s H' (branch .left x false nil nil) ∧
      Frozen H H' [x] := by
  have hroot := (root_eq_sentinel h).mpr rfl
  refine ⟨_, by simp [insert, hroot, hx0]; rfl, ⟨⟨?_, ?_, fun _ => trivial⟩, ⟨?_, ?_, ?_⟩, ⟨?_, ?_, ?_⟩, ?_,
    h.not_null⟩, ?_⟩
  · exact rfl
  · rw [links_branch]
    simp [Dir.flip]
  · simp
  · simp [Ne.symm hxs]
  · simp [Ne.symm hx0]
  · simp
  · simp
  · exact ⟨1, by simp [height_branch]⟩
  · simp [Ne.symm hxs, h.sentinel]
  · intro q hq
    simp only [List.mem_singleton] at hq
    simp [hq]

theorem insert_spec (callback : Nat → Ptr → Nodes → Ptr → Ptr → Option Nodes) (goLeft : Ptr → Bool)
    (fuel : Nat) (x : Ptr) (t : Linked Bool)
    (hcallback : callback fuel s H H.root x = insertBy goLeft fuel s H H.root x) (h : Valid s H t)
    (hx : x ∉ t.toList) (hxs : x ≠ s) (hx0 : x ≠ 0)
    (hmono : t.toList.Pairwise fun q q' => goLeft q = true → goLeft q' = true)
    (hfuel : t.toList.length < fuel) :
    ∃ H' t' ls rs, insert callback fuel s H x = some H' ∧ Valid s H' t' ∧ t.toList = ls ++ rs ∧
      t'.toList = ls ++ x :: rs ∧ (∀ q ∈ ls, goLeft q = false) ∧ (∀ q ∈ rs, goLeft q = true) ∧
      Frozen H H' (ls ++ x :: rs) := by
  by_cases hne : t = nil
  · subst hne
    obtain ⟨H', hrun, hvalid, hfrozen⟩ := insert_empty callback fuel x h hxs hx0
    exact ⟨H', _, [], [], hrun, hvalid, rfl, rfl, by simp, by simp, hfrozen⟩
  · obtain ⟨f, gs, hdescend, hgap, hplug, hbefore, hafter⟩ := descend_spec goLeft fuel [] t h.holds hne
      hmono (by simp [before]) (by simp [after]) (Nat.le_of_lt hfuel)
    obtain ⟨H₁, hattach, h₁⟩ := attach_spec x f hgap hx hxs hx0
    have hlen : (f :: gs).length < fuel := by
      have h1 := length_le_outer (f :: gs)
      have h2 := (toList_plug_perm (f :: gs) (nil : Linked Bool)).length_eq
      rw [hplug, plug_nil, toList_nil, List.nil_append] at h2
      omega
    obtain ⟨n, hn, hheight, -, hout, -⟩ := (redBlack_plug (f :: gs) nil).mp (by rw [hplug]; exact h.redBlack)
    have hclean : Clean n nil := ⟨rfl, trivial, hn⟩
    obtain ⟨H₂, t₂, hfix, h₂, hno, hheight₂⟩ := insertFix_spec fuel n hclean hclean hout hheight hlen h₁
    have hne₂ : t₂ ≠ nil := by
      rintro rfl
      have hlist := h₂.list
      simp at hlist
    obtain ⟨hroot0, t₃, h₃, hrb⟩ := h₂.blacken hne₂ hno hheight₂
    refine ⟨_, t₃, before (f :: gs), after (f :: gs), ?_, h₃.valid hrb, ?_, h₃.list, hbefore, hafter, ?_⟩
    · have hroot : H.root ≠ s := fun heq => hne ((root_eq_sentinel h).mp heq)
      have hptr : H.root = t.ptr s := h.focus.root_eq
      rw [← hptr] at hdescend
      simp [insert, hroot, hcallback, insertBy, hdescend, hattach, hfix, hroot0]
    · have hlist := congrArg Linked.toList hplug
      rw [toList_plug, toList_nil, List.nil_append] at hlist
      exact hlist.symm
    · exact h₃.frozen

end Nginx.Rbtree
