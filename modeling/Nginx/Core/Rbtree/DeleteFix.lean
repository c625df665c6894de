import Nginx.Core.Rbtree.Rotate

namespace Nginx.Rbtree

open LinkedTree LinkedTree.Linked

variable {s : Ptr} {H₀ H : Nodes} {L : List Ptr} {fs : List (Frame Bool)} {d : Dir} {p q : Ptr}
  {c : Bool} {t w w₁ w₂ : Linked Bool} {n : Nat}

def blacken : Linked Bool → Linked Bool
  | nil => nil
  | node p _ l r => node p false l r

theorem blacken_branch : blacken (branch d p c t w) = branch d p false t w := by
  cases d <;> rfl

theorem blacken_of_black (h : t.red = false) : blacken t = t := by
  cases t with
  | nil => rfl
  | node p c l r =>
      obtain rfl : c = false := h
      rfl

-- The paths through the focus have one black node too few. The color of its topmost node does not
-- matter, since it ends up black when it is red.
structure Short (n : Nat) (fs : List (Frame Bool)) (t : Linked Bool) : Prop where
  noRedRed : (blacken t).NoRedRed
  height : t.Height n
  outer : OuterNoRedRed fs
  outerHeight : OuterHeight fs (n + 1)

theorem short_of_redBlack (h : t.RedBlack) : ∃ n, Short n [] t := by
  obtain ⟨n, hn⟩ := h.height
  exact ⟨n, (blacken_of_black h.root).symm ▸ h.noRedRed, hn, trivial, trivial⟩

-- Only the fixup reads the parent of the sentinel, which no step of it changes.
theorem Holds.parent_sentinel (h : Holds H₀ L s H fs t) : H.parent s = H₀.parent s :=
  (h.frozen s (h.list ▸ h.distinct.sentinel)).2.1

theorem Holds.above {H' : Nodes} {fs' : List (Frame Bool)} {u : Linked Bool}
    (h : Holds H₀ L s H fs t) (h' : Holds H₀ L s H' (⟨d, p, c, u⟩ :: fs') t)
    (hup : H.parent (t.ptr s) = p) : H'.parent (t.ptr s) = p := by
  by_cases hne : t = nil
  · subst hne
    exact h'.parent_sentinel.trans (h.parent_sentinel.symm.trans hup)
  · exact h'.focus.above hne

theorem sibling_eq (h : Holds H₀ L s H (⟨d, p, c, w⟩ :: fs) t) (hup : H.parent (t.ptr s) = p) :
    sibling d H (t.ptr s) = some (w.ptr s) := by
  have hread := (holds_down.mpr h).focus.child_flip_eq
  simp [sibling, hup, hread, h.ptr_ne_null, (holds_down.mpr h).ne_null]

theorem redSibling_black (h : Holds H₀ L s H (⟨d, p, c, w⟩ :: fs) t) (hw : w.red = false) :
    redSibling d s H (t.ptr s) (w.ptr s) = some (H, w.ptr s) := by
  have hlabel : H.label (w.ptr s) = false := h.sibling.label_ptr.trans hw
  simp [redSibling, hlabel, h.sibling.ptr_ne_null]

-- A red sibling is rotated up; its near child is the new sibling.
theorem redSibling_red (hup : H.parent (t.ptr s) = p)
    (h : Holds H₀ L s H (⟨d, p, c, branch d q true w₁ w₂⟩ :: fs) t) :
    ∃ H', redSibling d s H (t.ptr s) q = some (H', w₁.ptr s) ∧ H'.parent (t.ptr s) = p ∧
      Holds H₀ L s H' (⟨d, p, true, w₁⟩ :: ⟨d, q, false, w₂⟩ :: fs) t := by
  have hlabel : H.label q = true := by simpa using h.sibling.label_ptr
  have h1 := (h.sibling.setLabel false).sibling
  rw [Dir.flip_flip] at h1
  have h2 := (holds_down.mpr h1).setLabel true
  obtain ⟨H', hrun, -, h3⟩ := h2.rotate
  have h4 := holds_down.mp (holds_down.mp h3)
  have hup' := h.above h4 hup
  refine ⟨H', ?_, hup', h4⟩
  simp [redSibling, hlabel, hup, h.sibling.ne_null, h.ptr_ne_null, (holds_down.mpr h).ne_null, hrun,
    sibling_eq h4 hup']

theorem turnSibling_red (far temp x : Ptr) (hfar : far ≠ 0) (hred : H.label far = true) :
    turnSibling d s H temp x far = some (H, x) := by
  simp [turnSibling, hfar, hred]

-- A black far child: the near child is rotated up and the far child becomes red.
theorem turnSibling_black (z : Ptr) (z₁ z₂ : Linked Bool) (hup : H.parent (t.ptr s) = p)
    (h : Holds H₀ L s H (⟨d, p, c, branch d q false (branch d z true z₁ z₂) w₂⟩ :: fs) t)
    (hw₂ : w₂.red = false) :
    ∃ H', turnSibling d s H (t.ptr s) q (w₂.ptr s) = some (H', z) ∧ H'.parent (t.ptr s) = p ∧
      Holds H₀ L s H' (⟨d, p, c, branch d z false z₁ (branch d q true z₂ w₂)⟩ :: fs) t := by
  have hw := h.sibling
  have hfar := (holds_down.mp hw).sibling
  have hlabel : H.label (w₂.ptr s) = false := hfar.label_ptr.trans hw₂
  have hnear : H.child d q = z := by simpa using hw.focus.child_eq
  have h1 := (holds_down.mp hw).setLabel false
  have h2 := (holds_down.mpr h1).setLabel true
  have hz0 := (holds_down.mp hw).ne_null
  rw [← branch_flip d q, ← branch_flip d z] at h2
  obtain ⟨H', hrun, -, h3⟩ := h2.rotate
  rw [branch_flip, branch_flip] at h3
  have h4 := h3.sibling
  rw [Dir.flip_flip] at h4
  have hup' := h.above h4 hup
  have hsib := sibling_eq h4 hup'
  rw [ptr_branch] at hsib
  refine ⟨H', ?_, hup', h4⟩
  simp [turnSibling, hlabel, hnear, hfar.ptr_ne_null, hw.ne_null, hz0, hrun, hsib]

theorem raise_spec {a b₁ b₂ : Linked Bool} {r : Ptr} {cq : Bool} (hup : H.parent (t.ptr s) = p)
    (h : Holds H₀ L s H (⟨d, p, c, branch d q cq a (branch d r true b₁ b₂)⟩ :: fs) t) :
    ∃ H', raise d s H (t.ptr s) q = some H' ∧
      Holds H₀ L s H' fs (branch d q c (branch d p false t a) (branch d r false b₁ b₂)) := by
  have hparent := holds_down.mpr h
  have hlabel : H.label p = c := by simpa using hparent.label_ptr
  have h1 := h.sibling.setLabel c
  have hq0 := h1.ne_null
  have h2 := h1.sibling
  rw [Dir.flip_flip] at h2
  have h3 := (holds_down.mpr h2).setLabel false
  have h4 := (holds_down.mp h3).sibling
  have hfar : H.child d.flip q = r := by
    simpa using h4.focus.child_flip_eq
  have h5 := ((holds_down.mp h4).sibling).setLabel false
  have h6 := (holds_down.mp (holds_down.mpr h5)).sibling
  have h7 := holds_down.mpr h6
  rw [Dir.flip_flip] at h7
  have h8 := h7.sibling
  rw [Dir.flip_flip] at h8
  obtain ⟨H', hrun, -, h9⟩ := (holds_down.mpr h8).rotate
  refine ⟨H', ?_, h9⟩
  simp [raise, hup, hlabel, hfar, hparent.ne_null, h.ptr_ne_null, hq0, h5.ne_null, hrun]

-- What a round leaves: the defect has moved up to the parent, or the whole tree is repaired.
def Moved (s : Ptr) (H₀ : Nodes) (L : List Ptr) (fs : List (Frame Bool)) (c : Bool) (H' : Nodes)
    (temp : Ptr) : Prop :=
  (∃ n t, temp = t.ptr s ∧ t ≠ nil ∧ t.red = c ∧ Holds H₀ L s H' fs t ∧ Short n fs t) ∨
    ∃ t, temp = t.ptr s ∧ t ≠ nil ∧ Holds H₀ L s H' [] t ∧ t.RedBlack

structure Sub (n : Nat) (t : Linked Bool) : Prop where
  noRedRed : t.NoRedRed
  height : t.Height n

theorem raised_redBlack {a b₁ b₂ : Linked Bool} {r : Ptr} (ht : Sub n t) (ha : Sub n a) (hb₁ : Sub n b₁)
    (hb₂ : Sub n b₂) (hout : OuterNoRedRed fs) (hc : c = true → outerRed fs = false)
    (hheight : OuterHeight fs (n + 1 + weight c)) :
    (plug fs (branch d q c (branch d p false t a) (branch d r false b₁ b₂))).RedBlack := by
  rw [redBlack_plug]
  refine ⟨n + 1 + weight c, ?_, hheight, ?_, hout, ?_⟩
  · rw [height_branch_add, height_branch_black, height_branch_black]
    exact ⟨⟨ht.height, ha.height⟩, hb₁.height, hb₂.height⟩
  · simp [ht.noRedRed, ha.noRedRed, hb₁.noRedRed, hb₂.noRedRed]
  · intro hred
    rw [red_branch]
    cases c with
    | false => rfl
    | true => exact absurd (hred.symm.trans (hc rfl)) (by decide)

theorem moved_raise {H' : Nodes} {a b₁ b₂ : Linked Bool} {r : Ptr}
    (h : Holds H₀ L s H' fs (branch d q c (branch d p false t a) (branch d r false b₁ b₂)))
    (hrb : (plug fs (branch d q c (branch d p false t a) (branch d r false b₁ b₂))).RedBlack) :
    Moved s H₀ L fs c H' H'.root := by
  have hplug : Holds H₀ L s H' [] (plug fs (branch d q c (branch d p false t a) (branch d r false b₁ b₂))) :=
    (holds_plug fs).mpr (by simpa using h)
  refine .inr ⟨_, hplug.focus.root_eq, ?_, hplug, hrb⟩
  intro hnil
  have hmem := h.mem
  rw [← h.list, hnil] at hmem
  cases hmem

theorem blackChildren_eq (h : Holds H₀ L s H fs (branch d q c w₁ w₂)) :
    blackChildren H q = some (!w₁.red && !w₂.red) := by
  have hsym : ∀ (u v : Linked Bool), Holds H₀ L s H fs (branch .left q c u v) →
      blackChildren H q = some (!u.red && !v.red) := by
    intro u v h
    have hleft := holds_down.mp h
    have hright := hleft.sibling
    have hu : H.child .left q = u.ptr s := h.focus.child_eq
    have hv : H.child .right q = v.ptr s := h.focus.child_flip_eq
    cases hred : u.red <;>
      simp [blackChildren, hu, hv, h.ne_null, hleft.ptr_ne_null, hright.ptr_ne_null, hleft.label_ptr,
        hright.label_ptr, hred]
  cases d with
  | left => exact hsym w₁ w₂ h
  | right =>
      rw [Bool.and_comm]
      exact hsym w₂ w₁ h

theorem blackSibling_spec (ht : Sub n t) (hw₁ : Sub n w₁) (hw₂ : Sub n w₂) (hout : OuterNoRedRed fs)
    (hc : c = true → outerRed fs = false) (hheight : OuterHeight fs (n + 1 + weight c))
    (hup : H.parent (t.ptr s) = p)
    (h : Holds H₀ L s H (⟨d, p, c, branch d q false w₁ w₂⟩ :: fs) t) :
    ∃ H' temp, blackSibling d s H (t.ptr s) q = some (H', temp) ∧ Moved s H₀ L fs c H' temp := by
  have hw := h.sibling
  have hnear := holds_down.mp hw
  have hfar := hnear.sibling
  have hreadf : H.child d.flip q = w₂.ptr s := hw.focus.child_flip_eq
  have hrun : blackSibling d s H (t.ptr s) q =
      if !w₁.red && !w₂.red then some (H.setLabel q true, p)
      else (turnSibling d s H (t.ptr s) q (w₂.ptr s)).bind fun out =>
        (raise d s out.1 (t.ptr s) out.2).bind fun H' => some (H', H'.root) := by
    simp [blackSibling, blackChildren_eq hw, hreadf, hw.ne_null, h.ptr_ne_null, hup]
  rw [hrun]
  by_cases hboth : w₁.red = false ∧ w₂.red = false
  · have hred := (hw.setLabel true).sibling
    rw [Dir.flip_flip] at hred
    have hmoved := holds_down.mpr hred
    refine ⟨_, p, by simp [hboth.1, hboth.2], .inl ⟨n + weight c, _, by simp, by simp, by simp, hmoved, ?_⟩⟩
    refine ⟨?_, ?_, hout, by rwa [Nat.add_right_comm]⟩
    · rw [blacken_branch]
      simp [ht.noRedRed, hw₁.noRedRed, hw₂.noRedRed, hboth.1, hboth.2]
    · rw [height_branch_add, height_branch_red]
      exact ⟨ht.height, hw₁.height, hw₂.height⟩
  · rw [if_neg (by simpa using hboth)]
    by_cases hfarRed : w₂.red = true
    · obtain ⟨r, cr, b₁, b₂, rfl⟩ := eq_branch d w₂ (by rintro rfl; cases hfarRed)
      obtain rfl : cr = true := by simpa using hfarRed
      have hlabel : H.label r = true := by simpa using hfar.label_ptr
      obtain ⟨H', hraise, h'⟩ := raise_spec hup h
      have hb := hw₂.noRedRed
      have hbh := hw₂.height
      rw [noRedRed_branch] at hb
      rw [height_branch_red] at hbh
      have hrb := raised_redBlack (d := d) (q := q) (p := p) (r := r) ht hw₁ ⟨hb.2.1, hbh.1⟩
        ⟨hb.2.2, hbh.2⟩ hout hc hheight
      exact ⟨H', _, by simp [turnSibling_red _ _ _ hfar.ne_null hlabel, hraise], moved_raise h' hrb⟩
    · have hfarBlack : w₂.red = false := by simpa using hfarRed
      have hnearRed : w₁.red = true := by simpa [hfarBlack] using hboth
      obtain ⟨z, cz, z₁, z₂, rfl⟩ := eq_branch d w₁ (by rintro rfl; cases hnearRed)
      obtain rfl : cz = true := by simpa using hnearRed
      obtain ⟨H₁, hturn, hup₁, h₁⟩ := turnSibling_black z z₁ z₂ hup h hfarBlack
      obtain ⟨H', hraise, h'⟩ := raise_spec hup₁ h₁
      have hb := hw₁.noRedRed
      have hbh := hw₁.height
      rw [noRedRed_branch] at hb
      rw [height_branch_red] at hbh
      have hrb := raised_redBlack (d := d) (q := z) (p := p) (r := q) ht ⟨hb.2.1, hbh.1⟩ ⟨hb.2.2, hbh.2⟩
        hw₂ hout hc hheight
      exact ⟨H', _, by simp [hturn, hraise], moved_raise h' hrb⟩

theorem height_black (h : t.Height (n + 1)) (hred : t.red = false) (hno : t.NoRedRed) (d : Dir) :
    ∃ q t₁ t₂, t = branch d q false t₁ t₂ ∧ Sub n t₁ ∧ Sub n t₂ := by
  obtain ⟨q, c, t₁, t₂, rfl⟩ := eq_branch d t h.ne_nil
  obtain rfl : c = false := by simpa using hred
  rw [height_branch_black] at h
  rw [noRedRed_branch] at hno
  exact ⟨q, t₁, t₂, rfl, ⟨hno.2.1, h.1⟩, ⟨hno.2.2, h.2⟩⟩

-- A whole round. A red sibling costs one more frame, but then the new focus is red.
theorem deleteRound_spec (hs : Short n (⟨d, p, c, w⟩ :: fs) t) (hblack : t.red = false)
    (hup : H.parent (t.ptr s) = p) (h : Holds H₀ L s H (⟨d, p, c, w⟩ :: fs) t) :
    ∃ H' temp, deleteRound d s H (t.ptr s) = some (H', temp) ∧
      (Moved s H₀ L fs c H' temp ∨ ∃ f, Moved s H₀ L (f :: fs) true H' temp) := by
  have ht : Sub n t := ⟨blacken_of_black hblack ▸ hs.noRedRed, hs.height⟩
  obtain ⟨hred, hw, hout⟩ := hs.outer
  obtain ⟨hwh, hheight⟩ := hs.outerHeight
  have hstart : deleteRound d s H (t.ptr s) =
      (redSibling d s H (t.ptr s) (w.ptr s)).bind fun out => blackSibling d s out.1 (t.ptr s) out.2 := by
    simp [deleteRound, sibling_eq h hup]
  by_cases hwred : w.red = true
  · obtain ⟨q, cq, w₁, w₂, rfl⟩ := eq_branch d w hwh.ne_nil
    obtain rfl : cq = true := by simpa using hwred
    obtain rfl : c = false := by
      cases c with
      | false => rfl
      | true => exact absurd (hred rfl).1 (by simp)
    rw [noRedRed_branch] at hw
    rw [height_branch_red] at hwh
    obtain ⟨q', x₁, x₂, rfl, hx₁, hx₂⟩ := height_black hwh.1 (hw.1 rfl).1 hw.2.1 d
    obtain ⟨H₁, hturn, hup₁, h₁⟩ := redSibling_red hup h
    have hout₁ : OuterNoRedRed (⟨d, q, false, w₂⟩ :: fs) := ⟨by simp, hw.2.2, hout⟩
    have hheight₁ : OuterHeight (⟨d, q, false, w₂⟩ :: fs) (n + 1) := ⟨hwh.2, hheight⟩
    obtain ⟨H', temp, hrun, hmoved⟩ := blackSibling_spec (c := true) ht hx₁ hx₂ hout₁ (fun _ => rfl) hheight₁ hup₁ h₁
    rw [ptr_branch] at hturn hstart
    exact ⟨H', temp, by simp [hstart, hturn, hrun], .inr ⟨_, hmoved⟩⟩
  · have hwblack : w.red = false := by simpa using hwred
    obtain ⟨q, w₁, w₂, rfl, hw₁, hw₂⟩ := height_black hwh hwblack hw d
    obtain ⟨H', temp, hrun, hmoved⟩ := blackSibling_spec ht hw₁ hw₂ hout (fun hc => (hred hc).2) hheight hup h
    rw [redSibling_black h hwblack] at hstart
    rw [ptr_branch] at hstart
    exact ⟨H', temp, by simp [hstart, hrun], .inl hmoved⟩

-- The loop stops at the root or at a red node, which becomes black.
theorem deleteFix_stop (fuel : Nat) (hs : Short n fs t) (hne : t ≠ nil) (hstop : fs = [] ∨ t.red = true)
    (h : Holds H₀ L s H fs t) :
    ∃ H' t', deleteFix s (fuel + 1) H (t.ptr s) = some H' ∧ Holds H₀ L s H' [] t' ∧ t'.RedBlack := by
  obtain ⟨p, c, u, v, rfl⟩ := eq_branch .left t hne
  have hrun : deleteFix s (fuel + 1) H p = some (H.setLabel p false) := by
    have hlabel : H.label p = c := by simpa using h.label_ptr
    rcases hstop with rfl | hred
    · have hroot : p = H.root := by simpa using h.focus.root_eq.symm
      have hp0 := h.ne_null
      rw [deleteFix, if_pos hroot, deref_of_ne _ _ hp0]
    · obtain rfl : c = true := by simpa using hred
      by_cases hroot : p = H.root
      · rw [deleteFix, if_pos hroot, deref_of_ne _ _ h.ne_null]
      · simp [deleteFix, hroot, hlabel, h.ne_null]
  have hblack := h.setLabel false
  refine ⟨_, _, by rwa [ptr_branch], (holds_plug fs).mpr (by simpa using hblack), ?_⟩
  have hno := hs.noRedRed
  have hheight := hs.height
  rw [blacken_branch] at hno
  rw [redBlack_plug]
  obtain ⟨m, hm, hu, hv⟩ := (height_branch _ _ _ _ _ _).mp hheight
  refine ⟨m + 1, by simp [hu, hv], ?_, hno, hs.outer, by simp⟩
  rcases hstop with rfl | hred
  · trivial
  · obtain rfl : c = true := by simpa using hred
    rw [weight_true, Nat.add_zero] at hm
    exact hm ▸ hs.outerHeight

theorem deleteFix_spec (fuel : Nat) (hs : Short n fs t) (hup : Above H (t.ptr s) fs)
    (hne : fs = [] → t ≠ nil) (hfuel : fs.length < fuel) (h : Holds H₀ L s H fs t) :
    ∃ H' t', deleteFix s fuel H (t.ptr s) = some H' ∧ Holds H₀ L s H' [] t' ∧ t'.RedBlack := by
  induction fuel generalizing H fs t n with
  | zero => omega
  | succ fuel ih =>
      by_cases hstop : fs = [] ∨ t.red = true
      · refine deleteFix_stop fuel hs ?_ hstop h
        rcases hstop with hnil | hred
        · exact hne hnil
        · rintro rfl
          cases hred
      · rw [not_or, Bool.not_eq_true] at hstop
        obtain ⟨hcons, hblack⟩ := hstop
        cases fs with
        | nil => exact absurd rfl hcons
        | cons f fs =>
            obtain ⟨d, p, c, w⟩ := f
            have hwne : w ≠ nil := hs.outerHeight.1.ne_nil
            have hup' : H.parent (t.ptr s) = p := hup
            have hside : (if t.ptr s = H.child .left p then Dir.left else Dir.right) = d := by
              simpa using h.focus.side_eq h.distinct (.inr hwne)
            obtain ⟨H', temp, hround, hmoved⟩ := deleteRound_spec hs hblack hup' h
            have hroot := h.focus.ne_root h.distinct
            have hlabel : H.label (t.ptr s) = false := h.label_ptr.trans hblack
            have hstep : deleteFix s (fuel + 1) H (t.ptr s) = deleteFix s fuel H' temp := by
              simp [deleteFix, hroot, hlabel, h.ptr_ne_null, hup', (holds_down.mpr h).ne_null, hside, hround]
            rw [hstep]
            simp only [List.length_cons] at hfuel
            obtain ⟨k, rfl⟩ : ∃ k, fuel = k + 1 := ⟨fuel - 1, by omega⟩
            obtain (⟨m, t', rfl, hne', -, h', hs'⟩ | ⟨t', rfl, hne', h', hrb⟩) |
              ⟨g, ⟨m, t', rfl, hne', hred, h', hs'⟩ | ⟨t', rfl, hne', h', hrb⟩⟩ := hmoved
            · exact ih hs' (h'.focus.above hne') (fun _ => hne') (by omega) h'
            · exact deleteFix_stop k (short_of_redBlack hrb).choose_spec hne' (.inl rfl) h'
            · exact deleteFix_stop k hs' hne' (.inr hred) h'
            · exact deleteFix_stop k (short_of_redBlack hrb).choose_spec hne' (.inl rfl) h'

end Nginx.Rbtree
