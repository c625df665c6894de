import Nginx.Http.FileCache.Ledger

namespace Nginx.FileCache

open Interleaving (tally tally_update le_tally)

-- count:20 has room for one more request.
def fits (sh : Shared) : Place → Move → Bool
  | .idle, .lookup _ _ (some p) _ => (sh.node p).count + 1 < 2 ^ 20
  | _, _ => true

-- No node whose file is counted is renewed, no size is set for a node that is being removed, and no file that has been
-- taken off the size comes back because a request holds its node when it is removed.
def proper (sh : Shared) : Place → Move → Bool
  | .idle, .lookup _ now (some p) _ =>
      let n := sh.node p
      !n.expired now || !n.existsFlag || n.deleting || n.fsSize = 0
  | .marking c, .markExists =>
      let n := sh.node c.node
      n.existsFlag || !n.deleting || c.fsSize = 0
  | .held c, .update renamed =>
      let n := sh.node c.node
      !n.deleting || (renamed.getD (0, 0)).2 = n.fsSize
  | .deleting p _, .deleted _ _ =>
      let n := sh.node p
      n.count = 1 || !n.existsFlag || n.fsSize = 0
  | _, _ => true

-- The nodes that have left the tree have no count.
def Freed (sh sh' : Shared) : Prop := ∀ q ∈ sh.tree, q ∉ sh'.tree → (sh'.node q).count = 0

theorem Freed.of_subset {sh sh' : Shared} (h : sh.tree ⊆ sh'.tree) : Freed sh sh' :=
  fun _ hq hno => absurd (h hq) hno

-- The nodes outside of the tree are left alone.
structure Kept (sh sh' : Shared) : Prop where
  freed : Freed sh sh'
  outside : ∀ q ∉ sh.tree, sh'.node q = sh.node q

theorem Kept.refl (sh : Shared) : Kept sh sh := ⟨fun _ hq hno => absurd hq hno, fun _ _ => rfl⟩

theorem Freed.trans {sh sh' sh'' : Shared} (h : Freed sh sh') (h' : Kept sh' sh'') : Freed sh sh'' := by
  intro q hq hno
  by_cases hmid : q ∈ sh'.tree
  · exact h'.freed q hmid hno
  · rw [h'.outside q hmid]
    exact h q hq hmid

theorem Kept.trans {sh sh' sh'' : Shared} (h : Kept sh sh') (h' : Kept sh' sh'') (htree : sh'.tree ⊆ sh.tree) :
    Kept sh sh'' :=
  ⟨h.freed.trans h', fun q hq => (h'.outside q fun hin => hq (htree hin)).trans (h.outside q hq)⟩

variable {P : Type} [Fintype P] [DecidableEq P]
variable {followed : Prop} {sh : Shared} {place : P → Place} {i : P} {l : Place} {p : Ptr} {c : Cache} {inactive : Int}

theorem holds_of_none (h : l.node = none) (q : Ptr) : holds q l = 0 := by
  unfold holds
  rw [if_neg]
  intro hsome
  rw [h] at hsome
  cases hsome

theorem holds_of_some (h : l.node = some p) : holds p l = 1 := if_pos h

theorem removal_of_none (h : l.node = none) (q : Ptr) : removal q l = 0 :=
  Nat.eq_zero_of_le_zero ((removal_le_holds q l).trans (Nat.le_of_eq (holds_of_none h q)))

omit [Fintype P] [DecidableEq P] in
theorem moves_about (hl : l.node = none ∨ l.node = some p) (hi : (place i).node = none ∨ (place i).node = some p) :
    Moves i place l p := by
  have hzero {l : Place} (hl : l.node = none ∨ l.node = some p) (q : Ptr) (hq : q ≠ p) : holds q l = 0 := by
    obtain hl | hl := hl
    · exact holds_of_none hl q
    · unfold holds
      rw [if_neg]
      intro heq
      exact hq (Option.some.inj (heq.symm.trans hl))
  have hnone {l : Place} (hl : l.node = none ∨ l.node = some p) (q : Ptr) (hq : q ≠ p) : removal q l = 0 :=
    Nat.eq_zero_of_le_zero ((removal_le_holds q l).trans (Nat.le_of_eq (hzero hl q hq)))
  exact ⟨fun q hq => (hzero hl q hq).trans (hzero hi q hq).symm, fun q hq => (hnone hl q hq).trans (hnone hi q hq).symm⟩

-- Nothing changes but where a party stands, with the same nodes.
theorem Sound.move (h : Sound followed sh place) (hholds : ∀ q : Ptr, holds q l = holds q (place i))
    (hremoval : ∀ q : Ptr, removal q l = removal q (place i)) : Sound followed sh (Function.update place i l) := by
  have htally (weight : Place → ℕ) (hsame : weight l = weight (place i)) :
      tally weight (Function.update place i l) = tally weight place := by
    have hupdate := tally_update weight place i l
    omega
  refine ⟨h.nodup, h.queue, h.slab, fun j q hj => ?_, fun q hq => ?_, h.small, fun q hq => ?_, h.absent, h.size⟩
  · by_cases hji : j = i
    · subst hji
      rw [Function.update_self, ← holds_pos_iff, hholds, holds_pos_iff] at hj
      exact h.held j q hj
    · rw [Function.update_of_ne hji] at hj
      exact h.held j q hj
  · rw [htally (holds q) (hholds q)]
    exact h.count q hq
  · rw [htally (removal q) (hremoval q)]
    exact h.deleting q hq

theorem Sound.move_none (h : Sound followed sh place) (hi : (place i).node = none) (hl : l.node = none) :
    Sound followed sh (Function.update place i l) :=
  h.move (fun q => (holds_of_none hl q).trans (holds_of_none hi q).symm)
    fun q => (removal_of_none hl q).trans (removal_of_none hi q).symm

omit [DecidableEq P] in
theorem Sound.count_pos (h : Sound followed sh place) (hi : (place i).node = some p) : 0 < (sh.node p).count := by
  have hle := le_tally (holds p) place i
  have hone := holds_of_some hi
  rw [h.count p (h.held i p hi)]
  omega

-- Without a count a node is not being removed.
omit [DecidableEq P] in
theorem Sound.not_deleting (h : Sound followed sh place) (hp : p ∈ sh.tree) (hcount : (sh.node p).count = 0) :
    (sh.node p).deleting = false := by
  have hle : tally (removal p) place ≤ tally (holds p) place :=
    Finset.sum_le_sum fun j _ => removal_le_holds p (place j)
  rw [← h.count p hp, hcount, h.deleting p hp] at hle
  cases hdeleting : (sh.node p).deleting with
  | false => rfl
  | true =>
      rw [hdeleting] at hle
      exact absurd hle (by decide)

theorem decrement_pos {n : ℕ} (hpos : 0 < n) (hsmall : n < 2 ^ 20) : decrement n = n - 1 := by
  unfold decrement
  omega

theorem increment_small {n : ℕ} (h : n + 1 < 2 ^ 20) : increment n = n + 1 := Nat.mod_eq_of_lt h

omit [DecidableEq P] in
theorem cons_erase_perm (h : Sound followed sh place) (hp : p ∈ sh.tree) : (p :: sh.queue.erase p).Perm sh.queue :=
  (List.perm_cons_erase ((h.queue p).mpr hp)).symm

-- The label done, for a node of the tree: the request that comes is counted.
theorem linkNode_sound (h : Sound followed sh place) (now : Int) (c : Cache) (hi : (place i).node = none) (hp : p ∈ sh.tree)
    {n : Node} (hcount : n.count = (sh.node p).count + 1) (hsmall : n.count < 2 ^ 20)
    (hdeleting : n.deleting = (sh.node p).deleting) (habsent : n.existsFlag = false → n.fsSize = 0)
    (hcharge : followed → charge n = charge (sh.node p)) :
    Sound followed (linkNode inactive now sh c p n).1 (Function.update place i (.held (linkNode inactive now sh c p n).2)) := by
  have hheld : (Place.held (linkNode inactive now sh c p n).2).node = some p := rfl
  have hzero := holds_of_none hi p
  have hone := holds_of_some hheld
  have hnone := removal_of_none hi p
  have hnone' : removal p (Place.held (linkNode inactive now sh c p n).2) = 0 := rfl
  have hcharge' : followed → charge { n with expire := now + inactive } = charge (sh.node p) := hcharge
  exact h.change (moves_about (Or.inr hheld) (Or.inl hi)) hp (cons_erase_perm h hp) (by dsimp only; omega) hsmall
    (by dsimp only; rw [hdeleting]; omega) habsent fun hf => (by rw [hcharge' hf, Int.sub_self, Int.add_zero]; rfl)

theorem useNode_sound (h : Sound followed sh place) (now : Int) (hi : (place i).node = none) (hp : p ∈ sh.tree)
    (hcount : (sh.node p).count + 1 < 2 ^ 20)
    (hrenew : followed → (sh.node p).expired now = true →
      (sh.node p).existsFlag = false ∨ (sh.node p).deleting = true ∨ (sh.node p).fsSize = 0) :
    Sound followed (useNode inactive now sh c p).2.1 (Function.update place i (.held (useNode inactive now sh c p).2.2)) := by
  have hsmall : increment (sh.node p).count = (sh.node p).count + 1 := increment_small hcount
  have hsmall' : increment (sh.node p).count < 2 ^ 20 := by omega
  have habsent := h.absent p hp
  unfold useNode
  dsimp only
  split
  · refine linkNode_sound h now c hi hp hsmall hsmall' ?_ (fun _ => ?_) fun hf => ?_
    · rfl
    · rfl
    show (if (sh.node p).deleting then 0 else 0) = charge (sh.node p)
    unfold charge
    obtain hexists | hdeleting | hsize := hrenew hf ‹_›
    · rw [habsent hexists]
    · rw [if_pos hdeleting, if_pos hdeleting]
    · rw [hsize]
  · split
    · exact linkNode_sound h now c hi hp hsmall hsmall' rfl habsent fun _ => rfl
    · split
      · exact linkNode_sound h now _ hi hp hsmall hsmall' rfl habsent fun _ => rfl
      · exact linkNode_sound h now c hi hp hsmall hsmall' rfl habsent fun _ => rfl

theorem newNode_sound (h : Sound followed sh place) (now : Int) (c : Cache) (hi : (place i).node = none) (hp : p ∉ sh.slab) :
    Sound followed (newNode inactive now sh c p).2.1 (Function.update place i (.held (newNode inactive now sh c p).2.2)) := by
  rw [h.slab] at hp
  have hqueue : sh.queue.erase p = sh.queue :=
    List.erase_of_not_mem fun hin => hp ((h.queue p).mp hin)
  have hheld : (Place.held (newNode inactive now sh c p).2.2).node = some p := rfl
  unfold newNode linkNode
  dsimp only [Shared.set]
  rw [hqueue]
  exact h.insert (moves_about (Or.inr hheld) (Or.inl hi)) hp (holds_of_some hheld).symm rfl rfl (fun _ => rfl)
    (Int.add_zero _).symm

theorem update_sound (h : Sound followed sh place) (renamed : Option (Nat × Int)) (hi : (place i).node = some c.node)
    (hremoval : removal c.node (place i) = 0)
    (hsize : followed → (sh.node c.node).deleting = true → (renamed.getD (0, 0)).2 = (sh.node c.node).fsSize) :
    Sound followed (update sh c renamed) (Function.update place i .idle) := by
  have hp := h.held i c.node hi
  have hpos := h.count_pos hi
  have hsmall := h.small c.node hp
  have hcount := decrement_pos hpos hsmall
  have hone := holds_of_some hi
  have hzero : holds c.node Place.idle = 0 := holds_of_none rfl c.node
  have hnone : removal c.node Place.idle = 0 := rfl
  unfold update
  refine h.change (moves_about (Or.inl rfl) (Or.inr hi)) hp (List.Perm.refl _) ?_ ?_ ?_ ?_ ?_
  · dsimp only
    omega
  · dsimp only
    omega
  · dsimp only
    omega
  · intro hexists
    dsimp only at hexists ⊢
    rw [Bool.or_eq_false_iff] at hexists
    cases renamed with
    | none => rfl
    | some file => exact Bool.noConfusion (show true = false from hexists.1)
  · intro hf
    unfold charge
    dsimp only
    cases hdeleting : (sh.node c.node).deleting with
    | false => rfl
    | true =>
        have hsame := hsize hf hdeleting
        rw [if_pos rfl, if_pos rfl]
        omega

theorem free_sound (h : Sound followed sh place) (hi : (place i).node = some c.node) (hremoval : removal c.node (place i) = 0) :
    Sound followed (free sh c) (Function.update place i .idle) ∧ Freed sh (free sh c) := by
  have hp := h.held i c.node hi
  have hpos := h.count_pos hi
  have hsmall := h.small c.node hp
  have hcount := decrement_pos hpos hsmall
  have hone := holds_of_some hi
  have hzero : holds c.node Place.idle = 0 := holds_of_none rfl c.node
  have hnone : removal c.node Place.idle = 0 := rfl
  have hmoves : Moves i place .idle c.node := moves_about (Or.inl rfl) (Or.inr hi)
  have hset {n : Node} (hn : n.count = decrement (sh.node c.node).count)
      (hdeleting : n.deleting = (sh.node c.node).deleting) (hexists : n.existsFlag = (sh.node c.node).existsFlag)
      (hfs : n.fsSize = (sh.node c.node).fsSize) :
      Sound followed (sh.set c.node n) (Function.update place i .idle) ∧ Freed sh (sh.set c.node n) := by
    refine ⟨h.change hmoves hp (List.Perm.refl _) (by omega) (by omega) (by rw [hdeleting]; omega) ?_ ?_,
      .of_subset (Finset.Subset.refl _)⟩
    · rw [hexists, hfs]
      exact h.absent c.node hp
    · intro _
      unfold charge
      rw [hdeleting, hfs, Int.sub_self, Int.add_zero]
  unfold free
  dsimp only
  split
  · split
    · exact hset rfl rfl rfl rfl
    · exact hset rfl rfl rfl rfl
  · split
    · rename_i hlast
      rw [Bool.and_eq_true, Bool.and_eq_true, Bool.not_eq_true', decide_eq_true_eq] at hlast
      obtain ⟨⟨hexists, hlast⟩, -⟩ := hlast
      have hupdate := tally_update (holds c.node) place i .idle
      have hold := h.count c.node hp
      have hcharge : charge (sh.node c.node) = 0 := by
        unfold charge
        rw [h.absent c.node hp hexists, ite_self]
      refine ⟨h.remove hmoves hp _ (by omega) fun _ => hcharge, fun q hq hno => ?_⟩
      obtain rfl : q = c.node := by
        by_contra hne
        exact hno (Finset.mem_erase.mpr ⟨hne, hq⟩)
      show (Function.update sh.node c.node _ c.node).count = 0
      rw [Function.update_self]
      exact hlast
    · exact hset rfl rfl rfl rfl

theorem markExists_sound (h : Sound followed sh place) (hi : place i = .marking c)
    (hsize : followed → (sh.node c.node).existsFlag = false → (sh.node c.node).deleting = true → c.fsSize = 0) :
    Sound followed (markExists sh c) (Function.update place i (.held c)) := by
  have hnode : (place i).node = some c.node := by rw [hi]; rfl
  have hp := h.held i c.node hnode
  have hholds : holds c.node (place i) = holds c.node (Place.held c) := by rw [hi]; rfl
  have hremoval : removal c.node (place i) = removal c.node (Place.held c) := by rw [hi]; rfl
  unfold markExists
  dsimp only
  split
  · exact h.move (fun q => by rw [hi]; rfl) fun q => by rw [hi]; rfl
  · rename_i hexists
    have hexists : (sh.node c.node).existsFlag = false := Bool.eq_false_iff.mpr hexists
    have hfs := h.absent c.node hp hexists
    refine h.change (moves_about (Or.inr rfl) (Or.inr hnode)) hp (List.Perm.refl _) (by dsimp only; omega)
      (h.small c.node hp) (by dsimp only; omega) (fun hno => Bool.noConfusion (show true = false from hno)) fun hf => ?_
    unfold charge
    dsimp only
    cases hdeleting : (sh.node c.node).deleting with
    | false =>
        rw [if_neg (by decide), if_neg (by decide)]
        omega
    | true =>
        rw [if_pos rfl, if_pos rfl, hsize hf hexists hdeleting]
        omega

theorem stale_sound (h : Sound followed sh place) (hi : place i = .held c) :
    Sound followed (stale sh c).1 (Function.update place i (.held (stale sh c).2)) := by
  have hnode : (place i).node = some c.node := by rw [hi]; rfl
  have hp := h.held i c.node hnode
  unfold stale
  dsimp only
  split
  · rw [← hi, Function.update_eq_self]
    exact h
  · have hholds : holds c.node (place i) = holds c.node (Place.held { c with updating := true }) := by rw [hi]; rfl
    have hremoval : removal c.node (place i) = removal c.node (Place.held { c with updating := true }) := by rw [hi]; rfl
    exact h.change (moves_about (Or.inr rfl) (Or.inr hnode)) hp (List.Perm.refl _) (by dsimp only; omega)
      (h.small c.node hp) (by dsimp only; omega) (h.absent c.node hp) fun _ => (by unfold charge; dsimp only; omega)

theorem placeOf_node (after : After) (r : Option Ptr) : (placeOf after r).node = r := by
  cases r with
  | some p => rfl
  | none => cases after <;> rfl

-- A node without a count: with a file it is taken off the size and counted for its removal, without one it goes.
theorem delete_sound (h : Sound followed sh place) (after : After) (hi : (place i).node = none) (hp : p ∈ sh.tree)
    (hcount : (sh.node p).count = 0) :
    Sound followed (delete sh p).1 (Function.update place i (placeOf after (delete sh p).2)) ∧ Kept sh (delete sh p).1 ∧
      (delete sh p).1.tree ⊆ sh.tree := by
  have hdeleting := h.not_deleting hp hcount
  have hzero := holds_of_none hi p
  have hnone := removal_of_none hi p
  unfold delete
  dsimp only
  split
  · have hone : holds p (Place.deleting p after) = 1 := holds_of_some rfl
    have hone' : removal p (Place.deleting p after) = 1 := if_pos rfl
    have hincrement : increment (sh.node p).count = 1 := by rw [hcount]; rfl
    refine ⟨h.change (moves_about (Or.inr rfl) (Or.inl hi)) hp (List.Perm.refl _) ?_ ?_ ?_ ?_ ?_,
      ⟨.of_subset (Finset.Subset.refl _), fun q hq => ?_⟩, Finset.Subset.refl _⟩
    · dsimp only [placeOf]
      omega
    · dsimp only
      omega
    · dsimp only [placeOf]
      rw [hdeleting, Bool.toNat_true, Bool.toNat_false]
      omega
    · exact h.absent p hp
    · intro _
      unfold charge
      dsimp only
      rw [hdeleting, if_pos rfl, if_neg (by decide)]
      omega
    · exact Function.update_of_ne (ne_of_mem_of_not_mem hp hq).symm _ _
  · rename_i hexists
    have hexists : (sh.node p).existsFlag = false := Bool.eq_false_iff.mpr hexists
    have hplace : (placeOf after none).node = none := placeOf_node after none
    have hzero' := holds_of_none hplace p
    have hupdate := tally_update (holds p) place i (placeOf after none)
    have hold := h.count p hp
    have hcharge : charge (sh.node p) = 0 := by
      unfold charge
      rw [h.absent p hp hexists, ite_self]
    have hremove := h.remove (moves_about (Or.inl hplace) (Or.inl hi)) hp (sh.node p) (by omega) fun _ => hcharge
    rw [Shared.set, Function.update_eq_self] at hremove
    refine ⟨hremove, ⟨fun q hq hno => ?_, fun q _ => rfl⟩, Finset.erase_subset _ _⟩
    obtain rfl : q = p := by
      by_contra hne
      exact hno (Finset.mem_erase.mpr ⟨hne, hq⟩)
    exact hcount

theorem after_node (after : After) : after.place.node = none := by
  cases after <;> rfl

-- Behind the removal of its file a node goes, unless a party has come to hold it.
theorem deleted_sound (h : Sound followed sh place) {after : After} (hi : place i = .deleting p after)
    (hfree : followed → (sh.node p).count ≠ 1 → (sh.node p).existsFlag = true → (sh.node p).fsSize = 0) :
    Sound followed (deleted sh p) (Function.update place i after.place) ∧ Freed sh (deleted sh p) := by
  have hnode : (place i).node = some p := by rw [hi]; rfl
  have hp := h.held i p hnode
  have hpos := h.count_pos hnode
  have hcount := decrement_pos hpos (h.small p hp)
  have hsmall := h.small p hp
  have hone := holds_of_some hnode
  have hplace := after_node after
  have hzero := holds_of_none hplace p
  have hone' : removal p (place i) = 1 := by rw [hi]; exact if_pos rfl
  have hnone := removal_of_none hplace p
  have hle := le_tally (removal p) place i
  have hdeleting : (sh.node p).deleting = true := by
    rw [h.deleting p hp, hone'] at hle
    cases hdeleting : (sh.node p).deleting with
    | true => rfl
    | false =>
        rw [hdeleting] at hle
        exact absurd hle (by decide)
  have hcharge : charge (sh.node p) = 0 := by
    rw [charge, if_pos hdeleting]
  have hmoves : Moves i place after.place p := moves_about (Or.inl hplace) (Or.inr hnode)
  unfold deleted
  dsimp only
  split
  · rename_i hlast
    have hupdate := tally_update (holds p) place i after.place
    have hold := h.count p hp
    refine ⟨h.remove hmoves hp _ (by omega) fun _ => hcharge, fun q hq hno => ?_⟩
    obtain rfl : q = p := by
      by_contra hne
      exact hno (Finset.mem_erase.mpr ⟨hne, hq⟩)
    show (Function.update sh.node q _ q).count = 0
    rw [Function.update_self]
    exact hlast
  · rename_i hmore
    refine ⟨h.change hmoves hp (List.Perm.refl _) (by dsimp only; omega) (by dsimp only; omega) ?_ (h.absent p hp) ?_,
      .of_subset (Finset.Subset.refl _)⟩
    · rw [hdeleting, Bool.toNat_true, Bool.toNat_false]
      omega
    · intro hf
      have hfs : (sh.node p).fsSize = 0 := by
        cases hexists : (sh.node p).existsFlag with
        | true => exact hfree hf (by omega) hexists
        | false => exact h.absent p hp hexists
      rw [hcharge]
      show sh.size = sh.size + ((sh.node p).fsSize - 0)
      omega

theorem forcedExpire_sound (h : Sound followed sh place) (after : After) (hi : (place i).node = none) (tries : ℕ) (ps : List Ptr)
    (hps : ∀ p ∈ ps, p ∈ sh.tree) :
    Sound followed (forcedExpire tries ps sh).1 (Function.update place i (placeOf after (forcedExpire tries ps sh).2)) ∧
      Kept sh (forcedExpire tries ps sh).1 := by
  have hstay : Sound followed sh (Function.update place i (placeOf after none)) := h.move_none hi (placeOf_node after none)
  induction ps generalizing tries with
  | nil => exact ⟨hstay, .refl sh⟩
  | cons p ps ih =>
      rw [forcedExpire]
      split
      · obtain ⟨hsound, hkept, -⟩ := delete_sound h after hi (hps p List.mem_cons_self) ‹_›
        exact ⟨hsound, hkept⟩
      · split
        · exact ih (tries - 1) fun q hq => hps q (List.mem_cons_of_mem p hq)
        · exact ⟨hstay, .refl sh⟩

-- Moving a node to the head of the queue for a time
theorem requeue_sound (h : Sound followed sh place) (i : P) (hp : p ∈ sh.tree) (time : Int) :
    Sound followed { sh.set p { sh.node p with expire := time } with queue := p :: sh.queue.erase p } place := by
  have hcharge : charge { sh.node p with expire := time } = charge (sh.node p) := rfl
  have hchange : Sound followed { sh.set p { sh.node p with expire := time } with queue := p :: sh.queue.erase p }
      (Function.update place i (place i)) :=
    h.change ⟨fun _ _ => rfl, fun _ _ => rfl⟩ hp (cons_erase_perm h hp) rfl (h.small p hp) rfl (h.absent p hp)
      fun _ => (by rw [hcharge, Int.sub_self, Int.add_zero]; rfl)
  rwa [Function.update_eq_self] at hchange

-- The loop of the manager: what it removes has no count, and it ends at most with one file to delete.
theorem expire_sound (now : Int) (fuel : ℕ) {sh sh' : Shared} {place : P → Place} (h : Sound followed sh place)
    (hi : (place i).node = none) {r : Option Ptr} (hrun : expire inactive now fuel sh = some (sh', r)) :
    Sound followed sh' (Function.update place i (placeOf .expire r)) ∧ Kept sh sh' := by
  induction fuel generalizing sh place with
  | zero => cases hrun
  | succ fuel ih =>
      have hstay : Sound followed sh (Function.update place i (placeOf .expire none)) := h.move_none hi rfl
      rw [expire] at hrun
      cases hlast : sh.queue.getLast? with
      | none =>
          rw [hlast] at hrun
          cases hrun
          exact ⟨hstay, .refl _⟩
      | some p =>
          have hp : p ∈ sh.tree := (h.queue p).mp (List.mem_of_getLast? hlast)
          rw [hlast] at hrun
          dsimp only at hrun
          split at hrun
          · cases hrun
            exact ⟨hstay, .refl _⟩
          · split at hrun
            · obtain ⟨hsound, hkept, htree⟩ := delete_sound h .expire hi hp ‹_›
              cases hdelete : delete sh p with
              | mk sh₁ r₁ =>
                  rw [hdelete] at hrun hsound hkept htree
                  cases r₁ with
                  | some q =>
                      cases hrun
                      exact ⟨hsound, hkept⟩
                  | none =>
                      have hnode : (Function.update place i (placeOf .expire none) i).node = none := by
                        rw [Function.update_self]
                        rfl
                      obtain ⟨hsound', hkept'⟩ := ih hsound hnode hrun
                      rw [Function.update_idem] at hsound'
                      exact ⟨hsound', hkept.trans hkept' htree⟩
            · split at hrun
              · cases hrun
                exact ⟨hstay, .refl _⟩
              · have hrequeue := requeue_sound h i hp (now + inactive)
                have hkept : Kept sh { sh.set p { sh.node p with expire := now + inactive } with
                    queue := p :: sh.queue.erase p } :=
                  ⟨.of_subset (Finset.Subset.refl _),
                    fun q hq => Function.update_of_ne (ne_of_mem_of_not_mem hp hq).symm _ _⟩
                obtain ⟨hsound, hkept'⟩ := ih hrequeue hi hrun
                exact ⟨hsound, hkept.trans hkept' (Finset.Subset.refl _)⟩

theorem add_sound (h : Sound followed sh place) (now : Int) (key : Bytes) (fsSize : Int) {found alloc : Option Ptr}
    (hi : (place i).node = none) (hfound : sh.finds key found = true) (halloc : sh.allocates alloc = true) :
    Sound followed (add inactive now sh key fsSize found alloc) place := by
  cases found with
  | some p =>
      have hp : p ∈ sh.tree := (of_decide_eq_true hfound).1
      exact requeue_sound h i hp (now + inactive)
  | none =>
      cases alloc with
      | none => exact h
      | some p =>
          have hp : p ∉ sh.tree := by
            rw [← h.slab]
            exact of_decide_eq_true halloc
          have hinsert : Sound followed (add inactive now sh key fsSize none (some p)) (Function.update place i (place i)) :=
            h.insert ⟨fun _ _ => rfl, fun _ _ => rfl⟩ hp (holds_of_none hi p).symm rfl (removal_of_none hi p)
            (fun hno => Bool.noConfusion (show true = false from hno)) rfl
          rwa [Function.update_eq_self] at hinsert

end Nginx.FileCache
