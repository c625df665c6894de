import Mathlib

namespace LinkedTree

abbrev Ptr := Nat

-- An access through a pointer; none is an access through NULL.
def deref {β : Type} (p : Ptr) (v : β) : Option β := if p = 0 then none else some v

@[simp] theorem deref_of_ne {β : Type} (p : Ptr) (v : β) (h : p ≠ 0) : deref p v = some v := if_neg h

inductive Dir where
  | left
  | right
deriving DecidableEq

def Dir.flip : Dir → Dir
  | .left => .right
  | .right => .left

@[simp] theorem Dir.flip_flip (d : Dir) : d.flip.flip = d := by cases d <;> rfl

@[simp] theorem Dir.flip_ne (d : Dir) : d.flip ≠ d := by cases d <;> decide

@[simp] theorem Dir.ne_flip (d : Dir) : d ≠ d.flip := by cases d <;> decide

theorem Dir.eq_flip_of_ne {d e : Dir} (h : d ≠ e) : d = e.flip := by
  cases d <;> cases e <;> first | rfl | exact absurd rfl h

-- The fields of every address and the pointer to the root.
structure Heap (α : Type _) where
  child : Dir → Ptr → Ptr
  parent : Ptr → Ptr
  label : Ptr → α
  root : Ptr

inductive Linked (α : Type _) where
  | nil
  | node (p : Ptr) (a : α) (l r : Linked α)

-- What lies above a subtree: the side it hangs on, its parent and the other subtree.
structure Frame (α : Type _) where
  dir : Dir
  ptr : Ptr
  label : α
  sib : Linked α

variable {α : Type _}

namespace Heap

def setChild (H : Heap α) (d : Dir) (p q : Ptr) : Heap α :=
  { H with child := fun e r => if e = d ∧ r = p then q else H.child e r }

def setParent (H : Heap α) (p q : Ptr) : Heap α :=
  { H with parent := fun r => if r = p then q else H.parent r }

def setLabel (H : Heap α) (p : Ptr) (a : α) : Heap α :=
  { H with label := fun r => if r = p then a else H.label r }

def setRoot (H : Heap α) (p : Ptr) : Heap α := { H with root := p }

section

variable (H : Heap α) (d e : Dir) (p q r : Ptr) (a : α)

@[simp] theorem setChild_child :
    (H.setChild d p q).child e r = if e = d ∧ r = p then q else H.child e r := rfl
@[simp] theorem setChild_parent : (H.setChild d p q).parent = H.parent := rfl
@[simp] theorem setChild_label : (H.setChild d p q).label = H.label := rfl
@[simp] theorem setChild_root : (H.setChild d p q).root = H.root := rfl

@[simp] theorem setParent_child : (H.setParent p q).child = H.child := rfl
@[simp] theorem setParent_parent :
    (H.setParent p q).parent r = if r = p then q else H.parent r := rfl
@[simp] theorem setParent_label : (H.setParent p q).label = H.label := rfl
@[simp] theorem setParent_root : (H.setParent p q).root = H.root := rfl

@[simp] theorem setLabel_child : (H.setLabel p a).child = H.child := rfl
@[simp] theorem setLabel_parent : (H.setLabel p a).parent = H.parent := rfl
@[simp] theorem setLabel_label : (H.setLabel p a).label r = if r = p then a else H.label r := rfl
@[simp] theorem setLabel_root : (H.setLabel p a).root = H.root := rfl

@[simp] theorem setRoot_child : (H.setRoot p).child = H.child := rfl
@[simp] theorem setRoot_parent : (H.setRoot p).parent = H.parent := rfl
@[simp] theorem setRoot_label : (H.setRoot p).label = H.label := rfl
@[simp] theorem setRoot_root : (H.setRoot p).root = p := rfl

end

end Heap

namespace Linked

-- The address of a subtree; the empty one is the address s.
def ptr (s : Ptr) : Linked α → Ptr
  | nil => s
  | node p _ _ _ => p

-- The addresses in order, and those below the topmost.
def toList : Linked α → List Ptr
  | nil => []
  | node p _ l r => l.toList ++ p :: r.toList

def under : Linked α → List Ptr
  | nil => []
  | node _ _ l r => l.toList ++ r.toList

-- A node whose subtree on the side d is t.
def branch (d : Dir) (p : Ptr) (a : α) (t u : Linked α) : Linked α :=
  match d with
  | .left => node p a t u
  | .right => node p a u t

@[simp] theorem ptr_nil (s : Ptr) : (nil : Linked α).ptr s = s := rfl

@[simp] theorem ptr_node (s p : Ptr) (a : α) (l r : Linked α) : (node p a l r).ptr s = p := rfl

@[simp] theorem ptr_branch (s : Ptr) (d : Dir) (p : Ptr) (a : α) (t u : Linked α) :
    (branch d p a t u).ptr s = p := by cases d <;> rfl

@[simp] theorem toList_nil : (nil : Linked α).toList = [] := rfl

@[simp] theorem toList_node (p : Ptr) (a : α) (l r : Linked α) :
    (node p a l r).toList = l.toList ++ p :: r.toList := rfl

@[simp] theorem toList_branch_left (p : Ptr) (a : α) (t u : Linked α) :
    (branch .left p a t u).toList = t.toList ++ p :: u.toList := rfl

@[simp] theorem toList_branch_right (p : Ptr) (a : α) (t u : Linked α) :
    (branch .right p a t u).toList = u.toList ++ p :: t.toList := rfl

@[simp] theorem mem_toList_branch (q : Ptr) (d : Dir) (p : Ptr) (a : α) (t u : Linked α) :
    q ∈ (branch d p a t u).toList ↔ q = p ∨ q ∈ t.toList ∨ q ∈ u.toList := by
  cases d
  · simp only [toList_branch_left, List.mem_append, List.mem_cons]
    tauto
  · simp only [toList_branch_right, List.mem_append, List.mem_cons]
    tauto

theorem toList_branch_perm (d : Dir) (p : Ptr) (a : α) (t u : Linked α) :
    (branch d p a t u).toList.Perm (p :: (t.toList ++ u.toList)) := by
  cases d
  · exact List.perm_middle
  · exact List.perm_middle.trans (List.perm_append_comm.cons p)

theorem branch_flip (d : Dir) (p : Ptr) (a : α) (t u : Linked α) : branch d.flip p a u t = branch d p a t u := by
  cases d <;> rfl

@[simp] theorem branch_ne_nil (d : Dir) (p : Ptr) (a : α) (t u : Linked α) : branch d p a t u ≠ nil := by
  cases d <;> simp [branch]

theorem eq_branch (d : Dir) (t : Linked α) (h : t ≠ nil) : ∃ p a u v, t = branch d p a u v := by
  cases t with
  | nil => exact absurd rfl h
  | node p a l r =>
      cases d with
      | left => exact ⟨p, a, l, r, rfl⟩
      | right => exact ⟨p, a, r, l, rfl⟩

theorem ptr_mem (s : Ptr) (t : Linked α) (h : t ≠ nil) : t.ptr s ∈ t.toList := by
  cases t with
  | nil => exact absurd rfl h
  | node p a l r => simp

theorem ptr_eq_nil_iff (s : Ptr) (t : Linked α) (h : s ∉ t.toList) : t.ptr s = s ↔ t = nil := by
  cases t with
  | nil => simp
  | node p a l r =>
      simp only [toList_node, List.mem_append, List.mem_cons, not_or] at h
      simp [Ne.symm h.2.1]

theorem under_subset (t : Linked α) : ∀ p ∈ t.under, p ∈ t.toList := by
  cases t with
  | nil => simp [under]
  | node p a l r =>
      intro q hq
      simp only [under, List.mem_append] at hq
      simp only [toList_node, List.mem_append, List.mem_cons]
      tauto

theorem ptr_not_mem_under (s : Ptr) (t : Linked α) (h : t.toList.Nodup) (hs : s ∉ t.toList) :
    t.ptr s ∉ t.under := by
  cases t with
  | nil => simp [under]
  | node p a l r =>
      simp only [toList_node, List.nodup_append, List.nodup_cons, List.mem_cons] at h
      simp only [ptr_node, under, List.mem_append, not_or]
      exact ⟨fun hp => h.2.2 p hp p (.inl rfl) rfl, h.2.1.1⟩

end Linked

open Linked

namespace Frame

def fill (f : Frame α) (t : Linked α) : Linked α := branch f.dir f.ptr f.label t f.sib

def toList (f : Frame α) : List Ptr := f.ptr :: f.sib.toList

end Frame

-- The whole tree around a subtree, and the addresses outside of it.
def plug : List (Frame α) → Linked α → Linked α
  | [], t => t
  | f :: fs, t => plug fs (f.fill t)

def outer (fs : List (Frame α)) : List Ptr := fs.flatMap Frame.toList

@[simp] theorem plug_nil (t : Linked α) : plug [] t = t := rfl

@[simp] theorem plug_cons (f : Frame α) (fs : List (Frame α)) (t : Linked α) :
    plug (f :: fs) t = plug fs (branch f.dir f.ptr f.label t f.sib) := rfl

theorem plug_append (gs fs : List (Frame α)) (t : Linked α) : plug (gs ++ fs) t = plug fs (plug gs t) := by
  induction gs generalizing t with
  | nil => rfl
  | cons g gs ih => exact ih _

@[simp] theorem outer_nil : outer ([] : List (Frame α)) = [] := rfl

@[simp] theorem outer_cons (f : Frame α) (fs : List (Frame α)) :
    outer (f :: fs) = f.ptr :: (f.sib.toList ++ outer fs) := rfl

-- The addresses before and after a subtree, in order.
def before : List (Frame α) → List Ptr
  | [] => []
  | f :: fs => before fs ++ match f.dir with
      | .left => []
      | .right => f.sib.toList ++ [f.ptr]

def after : List (Frame α) → List Ptr
  | [] => []
  | f :: fs => (match f.dir with
      | .left => f.ptr :: f.sib.toList
      | .right => []) ++ after fs

theorem toList_plug (fs : List (Frame α)) (t : Linked α) :
    (plug fs t).toList = before fs ++ (t.toList ++ after fs) := by
  induction fs generalizing t with
  | nil => simp [before, after]
  | cons f fs ih =>
      obtain ⟨d, p, a, u⟩ := f
      cases d <;> simp [ih, before, after]

theorem outer_perm (fs : List (Frame α)) : (before fs ++ after fs).Perm (outer fs) := by
  induction fs with
  | nil => rfl
  | cons f fs ih =>
      obtain ⟨d, p, a, u⟩ := f
      have hsplit : (before fs ++ (p :: u.toList ++ after fs)).Perm (p :: u.toList ++ outer fs) :=
        List.perm_append_comm_assoc _ _ _ |>.trans (ih.append_left _)
      cases d with
      | left => simpa [before, after] using hsplit
      | right =>
          have hmove : (u.toList ++ [p]).Perm (p :: u.toList) := List.perm_append_singleton p u.toList
          have h : (before fs ++ ((u.toList ++ [p]) ++ after fs)).Perm (p :: u.toList ++ outer fs) :=
            ((hmove.append_right _).append_left _).trans hsplit
          simpa [before, after] using h

theorem length_le_outer (fs : List (Frame α)) : fs.length ≤ (outer fs).length := by
  induction fs with
  | nil => exact Nat.le_refl _
  | cons f fs ih =>
      simp only [outer_cons, List.length_cons, List.length_append]
      omega

theorem toList_plug_perm (fs : List (Frame α)) (t : Linked α) :
    (plug fs t).toList.Perm (t.toList ++ outer fs) := by
  rw [toList_plug]
  exact (List.perm_append_comm_assoc _ _ _).trans ((outer_perm fs).append_left _)

section Represent

variable (H H' : Heap α) (s : Ptr)

-- The parent pointer of a subtree that is not empty.
def Up (q : Ptr) (t : Linked α) : Prop := t ≠ nil → H.parent (t.ptr s) = q

-- The heap holds the tree, apart from the parent pointer of its topmost node.
def Links : Linked α → Prop
  | nil => True
  | node p a l r =>
      H.label p = a ∧ H.child .left p = l.ptr s ∧ H.child .right p = r.ptr s ∧
        Up H s p l ∧ Up H s p r ∧ Links l ∧ Links r

-- The parent of the root is not specified.
def Above (p : Ptr) : List (Frame α) → Prop
  | [] => True
  | f :: _ => H.parent p = f.ptr

-- The heap holds everything around a subtree at the address h.
def Hole : List (Frame α) → Ptr → Prop
  | [], h => H.root = h
  | f :: fs, h =>
      H.label f.ptr = f.label ∧ H.child f.dir f.ptr = h ∧ H.child f.dir.flip f.ptr = f.sib.ptr s ∧
        Up H s f.ptr f.sib ∧ Links H s f.sib ∧ Above H f.ptr fs ∧ Hole fs f.ptr

-- The heap holds a tree, seen from one of its subtrees.
structure Focus (fs : List (Frame α)) (t : Linked α) : Prop where
  hole : Hole H s fs (t.ptr s)
  links : Links H s t
  above : t ≠ nil → Above H (t.ptr s) fs

-- No address occurs twice, and neither NULL nor the address of the empty tree occurs.
structure Distinct (t : Linked α) : Prop where
  nodup : t.toList.Nodup
  sentinel : s ∉ t.toList
  null : 0 ∉ t.toList

variable {H H' s}

@[simp] theorem up_nil (q : Ptr) : Up H s q (nil : Linked α) := fun h => absurd rfl h

@[simp] theorem up_branch (q : Ptr) (d : Dir) (p : Ptr) (a : α) (t u : Linked α) :
    Up H s q (branch d p a t u) ↔ H.parent p = q := by
  simp [Up]

@[simp] theorem links_nil : Links H s (nil : Linked α) := trivial

theorem links_branch (d : Dir) (p : Ptr) (a : α) (t u : Linked α) :
    Links H s (branch d p a t u) ↔
      H.label p = a ∧ H.child d p = t.ptr s ∧ H.child d.flip p = u.ptr s ∧
        Up H s p t ∧ Up H s p u ∧ Links H s t ∧ Links H s u := by
  cases d
  · rfl
  · simp only [branch, Links, Dir.flip]
    tauto

-- The view from a node and the view from one of its subtrees.
theorem focus_down (d : Dir) (p : Ptr) (a : α) (t u : Linked α) (fs : List (Frame α)) :
    Focus H s fs (branch d p a t u) ↔ Focus H s (⟨d, p, a, u⟩ :: fs) t := by
  constructor
  · rintro ⟨hhole, hlinks, habove⟩
    rw [links_branch] at hlinks
    obtain ⟨ha, ht, hu, hupt, hupu, hlt, hlu⟩ := hlinks
    rw [ptr_branch] at hhole habove
    exact ⟨⟨ha, ht, hu, hupu, hlu, habove (branch_ne_nil d p a t u), hhole⟩, hlt, hupt⟩
  · rintro ⟨⟨ha, ht, hu, hupu, hlu, habove, hhole⟩, hlt, hupt⟩
    refine ⟨by rwa [ptr_branch], ?_, fun _ => by rwa [ptr_branch]⟩
    rw [links_branch]
    exact ⟨ha, ht, hu, hupt, hupu, hlt, hlu⟩

theorem focus_plug (gs fs : List (Frame α)) (t : Linked α) :
    Focus H s fs (plug gs t) ↔ Focus H s (gs ++ fs) t := by
  induction gs generalizing t with
  | nil => rfl
  | cons g gs ih =>
      rw [plug_cons, ih, focus_down]
      rfl

theorem Focus.sibling {d : Dir} {p : Ptr} {a : α} {t u : Linked α} {fs : List (Frame α)}
    (h : Focus H s (⟨d, p, a, u⟩ :: fs) t) : Focus H s (⟨d.flip, p, a, t⟩ :: fs) u := by
  rw [← focus_down, branch_flip, focus_down]
  exact h

section Read

variable {d : Dir} {p : Ptr} {a : α} {t u : Linked α} {fs : List (Frame α)} {f : Frame α}

theorem Focus.label_eq (h : Focus H s fs (branch d p a t u)) : H.label p = a :=
  ((links_branch d p a t u).mp h.links).1

theorem Focus.child_eq (h : Focus H s fs (branch d p a t u)) : H.child d p = t.ptr s :=
  ((links_branch d p a t u).mp h.links).2.1

theorem Focus.child_flip_eq (h : Focus H s fs (branch d p a t u)) : H.child d.flip p = u.ptr s :=
  ((links_branch d p a t u).mp h.links).2.2.1

theorem Focus.parent_eq (h : Focus H s (f :: fs) t) (hne : t ≠ nil) : H.parent (t.ptr s) = f.ptr :=
  h.above hne

theorem Focus.root_eq (h : Focus H s [] t) : H.root = t.ptr s := h.hole

end Read

-- Only the topmost parent pointer may differ.
theorem Links.congr {t : Linked α} (h : Links H s t)
    (hlabel : ∀ p ∈ t.toList, H'.label p = H.label p)
    (hchild : ∀ d, ∀ p ∈ t.toList, H'.child d p = H.child d p)
    (hparent : ∀ p ∈ t.under, H'.parent p = H.parent p) : Links H' s t := by
  induction t with
  | nil => trivial
  | node p a l r ihl ihr =>
      obtain ⟨ha, hl, hr, hul, hur, hll, hlr⟩ := h
      simp only [toList_node, List.mem_append, List.mem_cons] at hlabel hchild
      simp only [under, List.mem_append] at hparent
      refine ⟨?_, ?_, ?_, ?_, ?_, ?_, ?_⟩
      · rw [hlabel p (by simp), ha]
      · rw [hchild _ p (by simp), hl]
      · rw [hchild _ p (by simp), hr]
      · intro hne
        rw [hparent _ (.inl (ptr_mem s l hne)), hul hne]
      · intro hne
        rw [hparent _ (.inr (ptr_mem s r hne)), hur hne]
      · exact ihl hll (fun q hq => hlabel q (.inl hq)) (fun d q hq => hchild d q (.inl hq))
          (fun q hq => hparent q (.inl (under_subset l q hq)))
      · exact ihr hlr (fun q hq => hlabel q (.inr (.inr hq))) (fun d q hq => hchild d q (.inr (.inr hq)))
          (fun q hq => hparent q (.inr (under_subset r q hq)))

theorem Above.congr {p p' : Ptr} {fs : List (Frame α)} (h : Above H p fs)
    (hp : H'.parent p' = H.parent p) : Above H' p' fs := by
  cases fs with
  | nil => trivial
  | cons f fs => exact hp.trans h

-- The heaps agree on the addresses of a list.
structure Agree (H H' : Heap α) (L : List Ptr) : Prop where
  label : ∀ p ∈ L, H'.label p = H.label p
  child : ∀ d, ∀ p ∈ L, H'.child d p = H.child d p
  parent : ∀ p ∈ L, H'.parent p = H.parent p

theorem Agree.mono {L L' : List Ptr} (h : Agree H H' L) (hsub : ∀ p ∈ L', p ∈ L) : Agree H H' L' :=
  ⟨fun p hp => h.label p (hsub p hp), fun d p hp => h.child d p (hsub p hp),
    fun p hp => h.parent p (hsub p hp)⟩

-- Nothing changes outside of a list.
def Frozen (H H' : Heap α) (L : List Ptr) : Prop :=
  ∀ p ∉ L, H'.label p = H.label p ∧ H'.parent p = H.parent p ∧ ∀ d, H'.child d p = H.child d p

theorem Frozen.trans {H'' : Heap α} {L : List Ptr} (h : Frozen H H' L) (h' : Frozen H' H'' L) :
    Frozen H H'' L := fun p hp =>
  ⟨(h' p hp).1.trans (h p hp).1, (h' p hp).2.1.trans (h p hp).2.1,
    fun d => ((h' p hp).2.2 d).trans ((h p hp).2.2 d)⟩

theorem Agree.links {t : Linked α} (h : Agree H H' t.toList) (hl : Links H s t) : Links H' s t :=
  hl.congr h.label h.child fun p hp => h.parent p (under_subset t p hp)

theorem Agree.up {t : Linked α} {q : Ptr} (h : Agree H H' t.toList) (hu : Up H s q t) : Up H' s q t :=
  fun hne => (h.parent _ (ptr_mem s t hne)).trans (hu hne)

theorem Agree.hole {fs : List (Frame α)} {h : Ptr} (ha : Agree H H' (outer fs))
    (hroot : H'.root = H.root) (hh : Hole H s fs h) : Hole H' s fs h := by
  induction fs generalizing h with
  | nil => exact hroot.trans hh
  | cons f fs ih =>
      obtain ⟨hlabel, hd, hf, hup, hlinks, habove, hrest⟩ := hh
      have hp : f.ptr ∈ outer (f :: fs) := by simp
      have hsib : Agree H H' f.sib.toList := ha.mono fun p hp => by
        simp only [outer_cons, List.mem_cons, List.mem_append]
        exact .inr (.inl hp)
      have hfs : Agree H H' (outer fs) := ha.mono fun p hp => by
        simp only [outer_cons, List.mem_cons, List.mem_append]
        exact .inr (.inr hp)
      exact ⟨(ha.label _ hp).trans hlabel, (ha.child _ _ hp).trans hd, (ha.child _ _ hp).trans hf,
        hsib.up hup, hsib.links hlinks, habove.congr (ha.parent _ hp), ih hfs hrest⟩

theorem Agree.focus {fs : List (Frame α)} {t : Linked α} (ha : Agree H H' (plug fs t).toList)
    (hroot : H'.root = H.root) (h : Focus H s fs t) : Focus H' s fs t := by
  rw [← List.append_nil fs] at h ⊢
  rw [← focus_plug] at h ⊢
  exact ⟨hroot.trans h.hole, ha.links h.links, fun _ => trivial⟩

end Represent

section Distinct

variable {s : Ptr} {fs : List (Frame α)} {t : Linked α}

theorem Distinct.split (h : Distinct s (plug fs t)) :
    (t.toList ++ outer fs).Nodup ∧ s ∉ t.toList ++ outer fs ∧ 0 ∉ t.toList ++ outer fs := by
  have hperm := toList_plug_perm fs t
  exact ⟨hperm.nodup_iff.mp h.nodup, hperm.mem_iff.not.mp h.sentinel, hperm.mem_iff.not.mp h.null⟩

theorem Distinct.of_toList_eq {t u : Linked α} (h : Distinct s t) (heq : u.toList = t.toList) :
    Distinct s u := ⟨heq ▸ h.nodup, heq ▸ h.sentinel, heq ▸ h.null⟩

-- The parts of a tree around a node share no address.
theorem Distinct.node {d : Dir} {p : Ptr} {a : α} {t u : Linked α}
    (h : Distinct s (plug fs (branch d p a t u))) :
    (p :: (t.toList ++ u.toList) ++ outer fs).Nodup :=
  ((toList_branch_perm d p a t u).append_right _).nodup_iff.mp h.split.1

theorem mem_plug (q : Ptr) : q ∈ (plug fs t).toList ↔ q ∈ t.toList ∨ q ∈ outer fs := by
  rw [(toList_plug_perm fs t).mem_iff, List.mem_append]

theorem Distinct.ne_null (h : Distinct s t) {p : Ptr} (hp : p ∈ t.toList) : p ≠ 0 :=
  fun heq => h.null (heq ▸ hp)

theorem Distinct.ne_sentinel (h : Distinct s t) {p : Ptr} (hp : p ∈ t.toList) : p ≠ s :=
  fun heq => h.sentinel (heq ▸ hp)

end Distinct

section Surgery

variable {H : Heap α} {s : Ptr}

-- Let the pointer that leads to the subtree lead to y.
def point (H : Heap α) (fs : List (Frame α)) (y : Ptr) : Heap α :=
  match fs with
  | [] => H.setRoot y
  | f :: _ => H.setChild f.dir f.ptr y

@[simp] theorem point_parent (fs : List (Frame α)) (y : Ptr) : (point H fs y).parent = H.parent := by
  cases fs <;> rfl

@[simp] theorem point_label (fs : List (Frame α)) (y : Ptr) : (point H fs y).label = H.label := by
  cases fs <;> rfl

theorem point_child (fs : List (Frame α)) (y : Ptr) (d : Dir) (p : Ptr) (hp : p ∉ outer fs) :
    (point H fs y).child d p = H.child d p := by
  cases fs with
  | nil => rfl
  | cons f fs =>
      simp only [outer_cons, List.mem_cons, not_or] at hp
      simp [point, hp.1]

theorem Hole.point {fs : List (Frame α)} {x : Ptr} (h : Hole H s fs x) (hn : (outer fs).Nodup)
    (y : Ptr) : Hole (point H fs y) s fs y := by
  cases fs with
  | nil => rfl
  | cons f fs =>
      obtain ⟨hlabel, hd, hf, hup, hlinks, habove, hrest⟩ := h
      simp only [outer_cons, List.nodup_cons, List.mem_append, not_or] at hn
      have hsib : Agree H (LinkedTree.point H (f :: fs) y) f.sib.toList := by
        refine ⟨fun _ _ => rfl, fun d p hp => ?_, fun _ _ => rfl⟩
        have hne : p ≠ f.ptr := fun h => hn.1.1 (h ▸ hp)
        simp [LinkedTree.point, hne]
      have hfs : Agree H (LinkedTree.point H (f :: fs) y) (outer fs) := by
        refine ⟨fun _ _ => rfl, fun d p hp => ?_, fun _ _ => rfl⟩
        have hne : p ≠ f.ptr := fun h => hn.1.2 (h ▸ hp)
        simp [LinkedTree.point, hne]
      refine ⟨hlabel, by simp [LinkedTree.point], ?_, hsib.up hup, hsib.links hlinks,
        habove.congr rfl, hfs.hole rfl hrest⟩
      simpa [LinkedTree.point] using hf

-- Code finds that pointer by comparing addresses.
theorem Hole.root_mem {fs : List (Frame α)} {x : Ptr} (h : Hole H s fs x) (hne : fs ≠ []) :
    H.root ∈ outer fs := by
  induction fs generalizing x with
  | nil => exact absurd rfl hne
  | cons f fs ih =>
      obtain ⟨-, -, -, -, -, -, hrest⟩ := h
      cases fs with
      | nil =>
          have hroot : H.root = f.ptr := hrest
          simp [hroot]
      | cons g gs =>
          have hmem := ih hrest (by simp)
          simp only [outer_cons, List.mem_cons, List.mem_append] at hmem ⊢
          tauto

theorem Hole.root_eq_iff {fs : List (Frame α)} {x : Ptr} (h : Hole H s fs x) (hx : x ∉ outer fs) :
    x = H.root ↔ fs = [] := by
  constructor
  · rintro rfl
    by_contra hne
    exact hx (h.root_mem hne)
  · rintro rfl
    exact h.symm

theorem Hole.child_iff {f : Frame α} {fs : List (Frame α)} {x : Ptr} (h : Hole H s (f :: fs) x)
    (hx : x ∉ f.sib.toList) (hne : x ≠ s ∨ f.sib ≠ nil) (d : Dir) : x = H.child d f.ptr ↔ f.dir = d := by
  obtain ⟨-, hdir, hflip, -⟩ := h
  have hsib : f.sib.ptr s ≠ x := by
    by_cases hu : f.sib = nil
    · rw [hu, ptr_nil]
      exact (hne.resolve_right (not_not.mpr hu)).symm
    · exact fun heq => hx (heq ▸ ptr_mem s f.sib hu)
  constructor
  · intro heq
    by_contra hside
    rw [Dir.eq_flip_of_ne (Ne.symm hside), hflip] at heq
    exact hsib heq.symm
  · rintro rfl
    exact hdir.symm

theorem Distinct.ptr_not_mem_sib {f : Frame α} {fs : List (Frame α)} {t : Linked α}
    (hd : Distinct s (plug (f :: fs) t)) : t.ptr s ∉ f.sib.toList := by
  obtain ⟨hnodup, hs, -⟩ := hd.split
  simp only [outer_cons, List.mem_append, List.mem_cons, not_or] at hs
  by_cases ht : t = nil
  · subst ht
    exact hs.2.2.1
  · intro hmem
    rw [List.nodup_append] at hnodup
    exact hnodup.2.2 _ (ptr_mem s t ht) _ (by simp [hmem]) rfl

theorem Focus.side_iff {f : Frame α} {fs : List (Frame α)} {t : Linked α} (h : Focus H s (f :: fs) t)
    (hd : Distinct s (plug (f :: fs) t)) (hne : t ≠ nil ∨ f.sib ≠ nil) (e : Dir) :
    t.ptr s = H.child e f.ptr ↔ f.dir = e := by
  refine h.hole.child_iff hd.ptr_not_mem_sib ?_ e
  rcases hne with ht | hu
  · exact .inl fun heq => hd.split.2.1 (List.mem_append_left _ (heq ▸ ptr_mem s t ht))
  · exact .inr hu

theorem Focus.side_eq {f : Frame α} {fs : List (Frame α)} {t : Linked α} (h : Focus H s (f :: fs) t)
    (hd : Distinct s (plug (f :: fs) t)) (hne : t ≠ nil ∨ f.sib ≠ nil) :
    (if t.ptr s = H.child .left f.ptr then Dir.left else Dir.right) = f.dir := by
  have hiff := h.side_iff hd hne .left
  by_cases hside : f.dir = .left
  · rw [if_pos (hiff.mpr hside), hside]
  · rw [if_neg (hiff.not.mpr hside), Dir.eq_flip_of_ne hside, Dir.flip]

-- The place of a subtree is not the root unless nothing is around it.
theorem Focus.ne_root {f : Frame α} {fs : List (Frame α)} {t : Linked α} (h : Focus H s (f :: fs) t)
    (hd : Distinct s (plug (f :: fs) t)) : t.ptr s ≠ H.root := by
  obtain ⟨hnodup, hs, -⟩ := hd.split
  have hroot := h.hole.root_mem (by simp)
  by_cases ht : t = nil
  · subst ht
    intro heq
    rw [← heq] at hroot
    exact hs (List.mem_append_right _ hroot)
  · rw [List.nodup_append] at hnodup
    exact fun heq => hnodup.2.2 _ (ptr_mem s t ht) _ hroot heq

-- A new label at the focus.
theorem Focus.setLabel {fs : List (Frame α)} {d : Dir} {p : Ptr} {a : α} {t u : Linked α}
    (h : Focus H s fs (branch d p a t u)) (hd : Distinct s (plug fs (branch d p a t u))) (b : α) :
    Focus (H.setLabel p b) s fs (branch d p b t u) := by
  obtain ⟨hnodup, -, -⟩ := hd.split
  have hagree : ∀ L : List Ptr, p ∉ L → Agree H (H.setLabel p b) L := by
    refine fun L hp => ⟨fun q hq => ?_, fun _ _ _ => rfl, fun _ _ => rfl⟩
    have hne : q ≠ p := fun heq => hp (heq ▸ hq)
    simp [hne]
  have hout : p ∉ outer fs := by
    rw [List.nodup_append] at hnodup
    exact fun hp => hnodup.2.2 p (by simp) p hp rfl
  have hsub : p ∉ t.toList ∧ p ∉ u.toList := by
    have hnode := hd.node
    simp only [List.cons_append, List.nodup_cons, List.mem_append, not_or] at hnode
    exact hnode.1.1
  obtain ⟨-, ht, hu, hupt, hupu, hlt, hlu⟩ := (links_branch d p a t u).mp h.links
  refine ⟨?_, ?_, fun _ => ?_⟩
  · have hhole := h.hole
    rw [ptr_branch] at hhole ⊢
    exact (hagree _ hout).hole rfl hhole
  · rw [links_branch]
    exact ⟨by simp, ht, hu, (hagree _ hsub.1).up hupt, (hagree _ hsub.2).up hupu,
      (hagree _ hsub.1).links hlt, (hagree _ hsub.2).links hlu⟩
  · have habove := h.above (branch_ne_nil d p a t u)
    rw [ptr_branch] at habove ⊢
    exact habove.congr rfl

end Surgery

section Search

-- A search that goes left at the nodes of a suffix of the order.
theorem gap_of_monotone (goLeft : Ptr → Bool) (p : Ptr) (a : α) (l r : Linked α)
    (hmono : (node p a l r).toList.Pairwise fun q q' => goLeft q = true → goLeft q' = true) :
    (goLeft p = true → ∀ q ∈ r.toList, goLeft q = true) ∧
      (goLeft p = false → ∀ q ∈ l.toList, goLeft q = false) := by
  simp only [toList_node, List.pairwise_append, List.pairwise_cons, List.mem_cons] at hmono
  obtain ⟨-, ⟨hr, -⟩, hl⟩ := hmono
  refine ⟨fun hp q hq => hr q hq hp, fun hp q hq => ?_⟩
  cases hgo : goLeft q with
  | false => rfl
  | true => exact absurd (hl q hq p (.inl rfl) hgo) (by simp [hp])

end Search

section Attach

variable {H : Heap α} {s : Ptr}

-- A new leaf at an empty place.
def leafAt (H : Heap α) (s : Ptr) (d : Dir) (p x : Ptr) (a : α) : Heap α :=
  (((((H.setChild d p x).setParent x p).setChild .left x s).setChild .right x s).setLabel x a)

theorem Focus.leafAt {d : Dir} {p x : Ptr} {b : α} {u : Linked α} {fs : List (Frame α)}
    (h : Focus H s (⟨d, p, b, u⟩ :: fs) nil) (hd : Distinct s (plug (⟨d, p, b, u⟩ :: fs) nil))
    (hx : x ∉ (plug (⟨d, p, b, u⟩ :: fs) nil).toList) (a : α) :
    Focus (leafAt H s d p x a) s (⟨d, p, b, u⟩ :: fs) (node x a nil nil) := by
  have hnode := (hd.split).1
  have hxout : x ∉ outer (⟨d, p, b, u⟩ :: fs) := fun h => hx ((mem_plug x).mpr (.inr h))
  simp only [toList_nil, List.nil_append, outer_cons, List.nodup_cons, List.mem_cons,
    List.mem_append, not_or] at hnode hxout
  obtain ⟨hlabel, hdir, hflip, hup, hlinks, habove, hhole⟩ := h.hole
  have hagree : ∀ M : List Ptr, x ∉ M → p ∉ M → Agree H (LinkedTree.leafAt H s d p x a) M := by
    refine fun M hxM hpM => ⟨fun q hq => ?_, fun e q hq => ?_, fun q hq => ?_⟩
    all_goals
      have hqx : q ≠ x := fun heq => hxM (heq ▸ hq)
      have hqp : q ≠ p := fun heq => hpM (heq ▸ hq)
      simp [LinkedTree.leafAt, hqx, hqp]
  have hpx : p ≠ x := Ne.symm hxout.1
  have hsib := hagree u.toList hxout.2.1 hnode.1.1
  have hfs := hagree (outer fs) hxout.2.2 hnode.1.2
  refine ⟨⟨?_, ?_, ?_, hsib.up hup, hsib.links hlinks, habove.congr ?_, hfs.hole rfl hhole⟩, ?_, ?_⟩
  · simpa [LinkedTree.leafAt, hpx] using hlabel
  · simp [LinkedTree.leafAt, hpx]
  · simpa [LinkedTree.leafAt, hpx] using hflip
  · simp [LinkedTree.leafAt, hpx]
  · exact ⟨by simp [LinkedTree.leafAt], by simp [LinkedTree.leafAt], by simp [LinkedTree.leafAt],
      by simp, by simp, trivial, trivial⟩
  · intro _
    simp [LinkedTree.leafAt, Above]

end Attach

section Frame

variable {H H' : Heap α} {L M : List Ptr}

theorem Frozen.refl : Frozen H H L := fun _ _ => ⟨rfl, rfl, fun _ => rfl⟩

theorem Frozen.mono (h : Frozen H H' L) (hsub : ∀ p ∈ L, p ∈ M) : Frozen H H' M :=
  fun p hp => h p fun hmem => hp (hsub p hmem)

theorem Frozen.agree (h : Frozen H H' L) (hdisj : ∀ p ∈ M, p ∉ L) : Agree H H' M :=
  ⟨fun p hp => (h p (hdisj p hp)).1, fun d p hp => (h p (hdisj p hp)).2.2 d,
    fun p hp => (h p (hdisj p hp)).2.1⟩

variable {p : Ptr} (hp : p ∈ L)

include hp

theorem Frozen.setChild (h : Frozen H H' L) (d : Dir) (q : Ptr) : Frozen H (H'.setChild d p q) L := by
  refine h.trans fun r hr => ⟨rfl, rfl, fun e => ?_⟩
  have hne : r ≠ p := fun heq => hr (heq ▸ hp)
  simp [hne]

theorem Frozen.setParent (h : Frozen H H' L) (q : Ptr) : Frozen H (H'.setParent p q) L := by
  refine h.trans fun r hr => ⟨rfl, ?_, fun _ => rfl⟩
  have hne : r ≠ p := fun heq => hr (heq ▸ hp)
  simp [hne]

theorem Frozen.setLabel (h : Frozen H H' L) (a : α) : Frozen H (H'.setLabel p a) L := by
  refine h.trans fun r hr => ⟨?_, rfl, fun _ => rfl⟩
  have hne : r ≠ p := fun heq => hr (heq ▸ hp)
  simp [hne]

omit hp

theorem Frozen.point (h : Frozen H H' L) (fs : List (Frame α)) (hfs : ∀ q ∈ outer fs, q ∈ L) (q : Ptr) :
    Frozen H (point H' fs q) L := by
  cases fs with
  | nil => exact h.trans fun _ _ => ⟨rfl, rfl, fun _ => rfl⟩
  | cons f fs => exact h.setChild (hfs f.ptr (by simp)) f.dir q

end Frame

section Removal

variable {H : Heap α} {s : Ptr}

theorem exists_plug (t : Linked α) (p : Ptr) (hp : p ∈ t.toList) :
    ∃ fs a l r, t = plug fs (branch .left p a l r) := by
  induction t with
  | nil => cases hp
  | node q b l r ihl ihr =>
      simp only [toList_node, List.mem_append, List.mem_cons] at hp
      rcases hp with hp | rfl | hp
      · obtain ⟨fs, a, u, v, rfl⟩ := ihl hp
        exact ⟨fs ++ [⟨.left, q, b, r⟩], a, u, v, by rw [plug_append]; rfl⟩
      · exact ⟨[], b, l, r, rfl⟩
      · obtain ⟨fs, a, u, v, rfl⟩ := ihr hp
        exact ⟨fs ++ [⟨.right, q, b, l⟩], a, u, v, by rw [plug_append]; rfl⟩

-- A node with at most one child gives its place to the child.
def splice (H : Heap α) (fs : List (Frame α)) (x up : Ptr) : Heap α := (point H fs x).setParent x up

section

variable {d : Dir} {p up : Ptr} {a : α} {u : Linked α} {fs : List (Frame α)} {L : List Ptr}

theorem Focus.splice (h : Focus H s fs (branch d p a u nil))
    (hd : Distinct s (plug fs (branch d p a u nil))) (up : Ptr) :
    Hole (splice H fs (u.ptr s) up) s fs (u.ptr s) ∧ Links (splice H fs (u.ptr s) up) s u := by
  obtain ⟨hnodup, hs, -⟩ := hd.split
  have hnode := hd.node
  simp only [toList_nil, List.append_nil, List.cons_append, List.nodup_cons, List.nodup_append,
    List.mem_append, mem_toList_branch, not_or] at hnode hs
  obtain ⟨-, hun, hon, hdisj⟩ := hnode
  have hx : u.ptr s ∉ outer fs := by
    by_cases hu : u = nil
    · subst hu
      exact hs.2
    · exact fun hmem => hdisj _ (ptr_mem s u hu) _ hmem rfl
  have hhole := h.hole
  rw [ptr_branch] at hhole
  have hagree : Agree (point H fs (u.ptr s)) (LinkedTree.splice H fs (u.ptr s) up) (outer fs) := by
    refine ⟨fun _ _ => rfl, fun _ _ _ => rfl, fun q hq => ?_⟩
    have hne : q ≠ u.ptr s := fun heq => hx (heq ▸ hq)
    simp [LinkedTree.splice, hne]
  refine ⟨hagree.hole rfl (hhole.point hon _), ?_⟩
  obtain ⟨-, -, -, -, -, hlinks, -⟩ := (links_branch _ _ _ _ _).mp h.links
  refine hlinks.congr (fun q _ => by simp [LinkedTree.splice]) (fun e q hq => ?_) (fun q hq => ?_)
  · simp [LinkedTree.splice, point_child fs _ e q fun hmem => hdisj q hq q hmem rfl]
  · have hne : q ≠ u.ptr s := fun heq => ptr_not_mem_under s u hun hs.1.2.1 (heq ▸ hq)
    simp [LinkedTree.splice, hne]

theorem Frozen.splice (hfs : ∀ q ∈ outer fs, q ∈ L) {x : Ptr} (hx : x ∈ L) :
    Frozen H (splice H fs x up) L := (Frozen.refl.point fs hfs x).setParent hx up

end

end Removal

section Reach

variable {H : Heap α} {s : Ptr}

-- The addresses that the child pointers lead to from the root.
inductive Reach (H : Heap α) (s : Ptr) : Ptr → Prop
  | root : H.root ≠ s → Reach H s H.root
  | child (p : Ptr) (d : Dir) : Reach H s p → H.child d p ≠ s → Reach H s (H.child d p)

theorem Links.reach {t : Linked α} (h : Links H s t) (hs : s ∉ t.toList)
    (htop : t ≠ nil → Reach H s (t.ptr s)) : ∀ q ∈ t.toList, Reach H s q := by
  induction t with
  | nil => simp
  | node p a l r ihl ihr =>
      obtain ⟨-, hl, hr, -, -, hll, hlr⟩ := h
      simp only [toList_node, List.mem_append, List.mem_cons, not_or] at hs
      have hp : Reach H s p := htop (by simp)
      have hdown : ∀ (d : Dir) (u : Linked α), H.child d p = u.ptr s → s ∉ u.toList → u ≠ nil →
          Reach H s (u.ptr s) := by
        intro d u hu hsu hne
        have hsent := (ptr_eq_nil_iff s u hsu).not.mpr hne
        rw [← hu] at hsent ⊢
        exact hp.child p d hsent
      intro q hq
      simp only [toList_node, List.mem_append, List.mem_cons] at hq
      rcases hq with hq | rfl | hq
      · exact ihl hll hs.1 (hdown .left l hl hs.1) q hq
      · exact hp
      · exact ihr hlr hs.2.2 (hdown .right r hr hs.2.2) q hq

theorem reach_iff {t : Linked α} (h : Focus H s [] t) (hd : Distinct s t) (q : Ptr) :
    Reach H s q ↔ q ∈ t.toList := by
  have hroot : H.root = t.ptr s := h.root_eq
  constructor
  · intro hq
    induction hq with
    | root hne =>
        rw [hroot] at hne ⊢
        exact ptr_mem s t ((ptr_eq_nil_iff s t hd.sentinel).not.mp hne)
    | child p d _ hne ih =>
        obtain ⟨fs, a, l, r, rfl⟩ := exists_plug t p ih
        have hp := (focus_plug fs [] _).mp h
        rw [List.append_nil] at hp
        have hdown : ∀ u : Linked α, H.child d p = u.ptr s → (∀ q ∈ u.toList, q = p ∨ q ∈ l.toList ∨ q ∈ r.toList) →
            H.child d p ∈ (plug fs (branch .left p a l r)).toList := by
          intro u hu hsub
          rw [hu] at hne ⊢
          have hnil : u ≠ nil := by
            rintro rfl
            exact hne rfl
          rw [mem_plug, mem_toList_branch]
          exact .inl (hsub _ (ptr_mem s u hnil))
        cases d with
        | left => exact hdown l hp.child_eq fun q hq => .inr (.inl hq)
        | right => exact hdown r hp.child_flip_eq fun q hq => .inr (.inr hq)
  · intro hq
    refine h.links.reach hd.sentinel (fun hne => ?_) q hq
    rw [← hroot]
    exact .root (by rw [hroot]; exact (ptr_eq_nil_iff s t hd.sentinel).not.mpr hne)

end Reach

end LinkedTree
