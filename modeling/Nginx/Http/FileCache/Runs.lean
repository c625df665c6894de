import Nginx.Http.FileCache.Sections

namespace Nginx.FileCache

open Interleaving (State Step Reachable tally)

-- A turn that a condition on the state before it allows
def Turns (inactive : Int) (allowed : Shared → Place → Move → Bool) (sh : Shared) (l : Place) (sh' : Shared) (l' : Place) :
    Prop :=
  ∃ m, allowed sh l m = true ∧ turn inactive sh l m = some (sh', l')

-- ngx_http_file_cache_init on memory that holds anything
def start (P : Type) (node : Ptr → Node) : State P Shared Place := ⟨⟨node, ∅, [], ∅, 0, true⟩, fun _ => .idle⟩

-- The sum of fs_size over the nodes with exists set, and what of it belongs to files that are being deleted
def listed (sh : Shared) : Int := ∑ p ∈ sh.tree, if (sh.node p).existsFlag then (sh.node p).fsSize else 0

def removing (sh : Shared) : Int :=
  ∑ p ∈ sh.tree, if (sh.node p).existsFlag && (sh.node p).deleting then (sh.node p).fsSize else 0

def request (p : Ptr) : Place → ℕ
  | .held c => if c.node = p then 1 else 0
  | .marking c => if c.node = p then 1 else 0
  | _ => 0

variable {P : Type} [Fintype P] [DecidableEq P]
variable {followed : Prop} {sh sh' : Shared} {place : P → Place} {i : P} {l : Place} {p : Ptr} {c : Cache}
  {inactive : Int}

-- The requests that hold a node
def requests (p : Ptr) (place : P → Place) : ℕ := tally (request p) place

theorem useNode_tree (now : Int) (sh : Shared) (c : Cache) (p : Ptr) :
    (useNode inactive now sh c p).2.1.tree = sh.tree := by
  unfold useNode
  dsimp only
  split
  · rfl
  · split
    · rfl
    · split
      · rfl
      · rfl

theorem update_tree (sh : Shared) (c : Cache) (renamed : Option (Nat × Int)) : (update sh c renamed).tree = sh.tree := rfl

theorem markExists_tree (sh : Shared) (c : Cache) : (markExists sh c).tree = sh.tree := by
  unfold markExists
  dsimp only
  split
  · rfl
  · rfl

theorem stale_tree (sh : Shared) (c : Cache) : (stale sh c).1.tree = sh.tree := by
  unfold stale
  dsimp only
  split
  · rfl
  · rfl

theorem add_tree (now : Int) (sh : Shared) (key : Bytes) (fsSize : Int) (found alloc : Option Ptr) :
    sh.tree ⊆ (add inactive now sh key fsSize found alloc).tree := by
  cases found with
  | some p => exact Finset.Subset.refl _
  | none =>
      cases alloc with
      | none => exact Finset.Subset.refl _
      | some p => exact Finset.subset_insert _ _

-- What each turn keeps: one case a move, at the places where it can be made.
theorem turn_sound (h : Sound followed sh place) {m : Move} (hfits : fits sh (place i) m = true)
    (hproper : followed → proper sh (place i) m = true) (hturn : turn inactive sh (place i) m = some (sh', l)) :
    Sound followed sh' (Function.update place i l) ∧ Freed sh sh' := by
  have hsame : Freed sh sh := .of_subset (Finset.Subset.refl _)
  cases m with
  | lookup c now found alloc =>
      cases hi : place i with
      | idle =>
          have hnode : (place i).node = none := by rw [hi]; rfl
          rw [hi] at hfits hproper hturn
          unfold turn at hturn
          dsimp only at hturn
          split at hturn
          · rename_i hgiven
            rw [Bool.and_eq_true] at hgiven
            cases found with
            | some p =>
                have hp : p ∈ sh.tree := (of_decide_eq_true hgiven.1).1
                cases hturn
                refine ⟨useNode_sound h now hnode hp (of_decide_eq_true hfits) fun hf hexpired => ?_,
                  .of_subset (useNode_tree now sh c p).symm.subset⟩
                have hcond := hproper hf
                simp only [proper, hexpired, Bool.not_true, Bool.false_or, Bool.or_eq_true, Bool.not_eq_true',
                  decide_eq_true_eq, or_assoc] at hcond
                exact hcond
            | none =>
                cases alloc with
                | some p =>
                    cases hturn
                    exact ⟨newNode_sound h now c hnode (of_decide_eq_true hgiven.2), .of_subset (Finset.subset_insert _ _)⟩
                | none =>
                    cases hturn
                    exact ⟨h.move_none hnode rfl, hsame⟩
          · cases hturn
      | _ => simp [turn, hi] at hturn
  | forcedExpire memory =>
      have hqueue : ∀ p ∈ sh.queue.reverse, p ∈ sh.tree := fun p hp => (h.queue p).mp (List.mem_reverse.mp hp)
      have hforced (after : After) (hnode : (place i).node = none)
          (hturn : (if memory then some ((forcedExpire 20 sh.queue.reverse sh).1,
              placeOf after (forcedExpire 20 sh.queue.reverse sh).2) else some (sh, after.place)) = some (sh', l)) :
          Sound followed sh' (Function.update place i l) ∧ Freed sh sh' := by
        split at hturn
        · cases hturn
          obtain ⟨hsound, hkept⟩ := forcedExpire_sound h after hnode 20 sh.queue.reverse hqueue
          exact ⟨hsound, hkept.freed⟩
        · cases hturn
          exact ⟨h.move_none hnode (after_node after), hsame⟩
      cases hi : place i with
      | idle =>
          rw [hi] at hturn
          exact hforced .forced (by rw [hi]; rfl) hturn
      | crowded c =>
          rw [hi] at hturn
          exact hforced (.retry c) (by rw [hi]; rfl) hturn
      | _ => simp [turn, hi] at hturn
  | retry now alloc =>
      cases hi : place i with
      | retrying c =>
          have hnode : (place i).node = none := by rw [hi]; rfl
          rw [hi] at hturn
          unfold turn at hturn
          dsimp only at hturn
          split at hturn
          · cases alloc with
            | some p =>
                cases hturn
                exact ⟨newNode_sound h now c hnode (of_decide_eq_true ‹_›), .of_subset (Finset.subset_insert _ _)⟩
            | none =>
                cases hturn
                exact ⟨h.move_none hnode rfl, hsame⟩
          · cases hturn
      | _ => simp [turn, hi] at hturn
  | work c' =>
      cases hi : place i with
      | held c =>
          rw [hi] at hturn
          unfold turn at hturn
          dsimp only at hturn
          split at hturn
          · rename_i hkeeps
            rw [Bool.and_eq_true, decide_eq_true_eq] at hkeeps
            cases hturn
            refine ⟨h.move (fun q => ?_) fun q => by rw [hi]; rfl, hsame⟩
            rw [hi, holds, holds, Place.node, Place.node, hkeeps.1]
          · cases hturn
      | _ => simp [turn, hi] at hturn
  | checkCold =>
      cases hi : place i with
      | held c =>
          rw [hi] at hturn
          unfold turn at hturn
          dsimp only at hturn
          cases hturn
          split
          · exact ⟨h.move (fun q => by rw [hi]; rfl) fun q => by rw [hi]; rfl, hsame⟩
          · exact ⟨h.move (fun q => by rw [hi]) fun q => by rw [hi], hsame⟩
      | _ => simp [turn, hi] at hturn
  | markExists =>
      cases hi : place i with
      | marking c =>
          rw [hi] at hproper hturn
          cases hturn
          refine ⟨markExists_sound h hi fun hf hexists hdeleting => ?_, .of_subset (markExists_tree sh c).symm.subset⟩
          have hcond := hproper hf
          simp only [proper, hexists, hdeleting, Bool.not_true, Bool.false_or, decide_eq_true_eq] at hcond
          exact hcond
      | _ => simp [turn, hi] at hturn
  | stale =>
      cases hi : place i with
      | held c =>
          rw [hi] at hturn
          cases hturn
          exact ⟨stale_sound h hi, .of_subset (stale_tree sh c).symm.subset⟩
      | _ => simp [turn, hi] at hturn
  | update renamed =>
      cases hi : place i with
      | held c =>
          rw [hi] at hproper hturn
          cases hturn
          refine ⟨update_sound h renamed (by rw [hi]; rfl) (by rw [hi]; rfl) fun hf hdeleting => ?_,
            .of_subset (update_tree sh c renamed).symm.subset⟩
          have hcond := hproper hf
          simp only [proper, hdeleting, Bool.not_true, Bool.false_or, decide_eq_true_eq] at hcond
          exact hcond
      | _ => simp [turn, hi] at hturn
  | free =>
      cases hi : place i with
      | held c =>
          rw [hi] at hturn
          cases hturn
          exact free_sound h (by rw [hi]; rfl) (by rw [hi]; rfl)
      | _ => simp [turn, hi] at hturn
  | expire now fuel =>
      cases hi : place i with
      | idle =>
          rw [hi] at hturn
          obtain ⟨⟨sh₁, r⟩, hrun, heq⟩ := Option.bind_eq_some_iff.mp hturn
          cases heq
          obtain ⟨hsound, hkept⟩ := expire_sound now fuel h (by rw [hi]; rfl) hrun
          exact ⟨hsound, hkept.freed⟩
      | _ => simp [turn, hi] at hturn
  | deleted now fuel =>
      cases hi : place i with
      | deleting p after =>
          rw [hi] at hproper hturn
          have hcond (hf : followed) (hcount : (sh.node p).count ≠ 1) (hexists : (sh.node p).existsFlag = true) :
              (sh.node p).fsSize = 0 := by
            have hcond := hproper hf
            simp only [proper, hcount, hexists, Bool.not_true, decide_false, Bool.false_or, decide_eq_true_eq] at hcond
            exact hcond
          obtain ⟨hsound, hfreed⟩ := deleted_sound h hi hcond
          cases after with
          | retry c =>
              obtain ⟨rfl, rfl⟩ := Prod.mk.inj (Option.some.inj hturn)
              exact ⟨hsound, hfreed⟩
          | forced =>
              obtain ⟨rfl, rfl⟩ := Prod.mk.inj (Option.some.inj hturn)
              exact ⟨hsound, hfreed⟩
          | expire =>
              obtain ⟨⟨sh₁, r⟩, hrun, heq⟩ := Option.bind_eq_some_iff.mp hturn
              cases heq
              have hnode : (Function.update place i After.expire.place i).node = none := by
                rw [Function.update_self]
                rfl
              obtain ⟨hsound', hkept⟩ := expire_sound now fuel hsound hnode hrun
              rw [Function.update_idem] at hsound'
              exact ⟨hsound', hfreed.trans hkept⟩
      | _ => simp [turn, hi] at hturn
  | add now key fsSize found alloc =>
      cases hi : place i with
      | idle =>
          have hnode : (place i).node = none := by rw [hi]; rfl
          rw [hi] at hturn
          unfold turn at hturn
          dsimp only at hturn
          split at hturn
          · rename_i hgiven
            rw [Bool.and_eq_true] at hgiven
            cases hturn
            have hsound : Sound followed (add inactive now sh key fsSize found alloc) place :=
              add_sound h now key fsSize hnode hgiven.1 hgiven.2
            rw [← hi, Function.update_eq_self]
            exact ⟨hsound, .of_subset (add_tree now sh key fsSize found alloc)⟩
          · cases hturn
      | _ => simp [turn, hi] at hturn
  | loaded =>
      cases hi : place i with
      | idle =>
          rw [hi] at hturn
          cases hturn
          rw [← hi, Function.update_eq_self]
          exact ⟨⟨h.nodup, h.queue, h.slab, h.held, h.count, h.small, h.deleting, h.absent, h.size⟩, hsame⟩
      | _ => simp [turn, hi] at hturn

omit [DecidableEq P] in
theorem start_sound (node : Ptr → Node) : Sound followed (start P node).shared (start P node).place where
  nodup := List.nodup_nil
  queue p := by simp [start]
  slab := rfl
  held i p h := by cases h
  count p h := absurd h (Finset.notMem_empty p)
  small p h := absurd h (Finset.notMem_empty p)
  deleting p h := absurd h (Finset.notMem_empty p)
  absent p h := absurd h (Finset.notMem_empty p)
  size _ := rfl

theorem reachable_sound {allowed : Shared → Place → Move → Bool} {node : Ptr → Node} {s : State P Shared Place}
    (hfits : ∀ sh l m, allowed sh l m = true → fits sh l m = true)
    (hproper : followed → ∀ sh l m, allowed sh l m = true → proper sh l m = true)
    (h : Reachable (Turns inactive allowed) (start P node) s) : Sound followed s.shared s.place := by
  apply h.invariant (start_sound node)
  rintro s s' hsound ⟨p, sh, l, m, hallowed, hturn⟩
  exact (turn_sound hsound (hfits _ _ _ hallowed) (fun hf => hproper hf _ _ _ hallowed) hturn).1

omit [DecidableEq P] in
theorem Sound.listed_eq (h : Sound True sh place) : sh.size = listed sh - removing sh := by
  rw [h.size trivial, listed, removing, ← Finset.sum_sub_distrib]
  apply Finset.sum_congr rfl
  intro p hp
  have habsent := h.absent p hp
  unfold charge
  cases hexists : (sh.node p).existsFlag with
  | false => simp [habsent hexists]
  | true =>
      cases hdeleting : (sh.node p).deleting with
      | false => simp
      | true => simp

theorem removing_eq_zero (h : ∀ p ∈ sh.tree, (sh.node p).deleting = false) : removing sh = 0 := by
  apply Finset.sum_eq_zero
  intro p hp
  rw [h p hp, Bool.and_false, if_neg Bool.false_ne_true]

theorem request_le_holds (p : Ptr) (l : Place) : request p l ≤ holds p l := by
  cases l with
  | held c => simp only [request, holds, Place.node, Option.some.injEq, Nat.le_refl]
  | marking c => simp only [request, holds, Place.node, Option.some.injEq, Nat.le_refl]
  | _ => exact Nat.zero_le _

omit [DecidableEq P] in
theorem Sound.requests_le (h : Sound followed sh place) (hp : p ∈ sh.tree) : requests p place ≤ (sh.node p).count := by
  rw [h.count p hp]
  exact Finset.sum_le_sum fun j _ => request_le_holds p (place j)

-- Both conditions
def balanced (sh : Shared) (l : Place) (m : Move) : Bool := fits sh l m && proper sh l m

-- What the count of a node protects: those that hold it, and that it is freed behind the last of them only.
structure Protected (s : State P Shared Place) : Prop where
  requests_le : ∀ p ∈ s.shared.slab, requests p s.place ≤ (s.shared.node p).count
  allocated : ∀ i p, (s.place i).node = some p → p ∈ s.shared.slab

structure FreedLast (s : State P Shared Place) (p : Ptr) : Prop where
  count : (s.shared.node p).count = 0
  tree : p ∉ s.shared.tree
  queue : p ∉ s.shared.queue
  nobody : ∀ i, (s.place i).node ≠ some p

-- For every interleaving where the counts fit, the counts protect the nodes. Where no step loses track of a file, the
-- size is that of the nodes with exists set, less the files that are being deleted.
theorem accounting_exact {node : Ptr → Node} {s : State P Shared Place}
    (h : Reachable (Turns inactive fits) (start P node) s) :
    Protected s ∧
      (∀ s', Step (Turns inactive fits) s s' → ∀ p ∈ s.shared.slab, p ∉ s'.shared.slab → FreedLast s' p) ∧
      (Reachable (Turns inactive balanced) (start P node) s →
        s.shared.size = listed s.shared - removing s.shared ∧
          ((∀ p ∈ s.shared.tree, (s.shared.node p).deleting = false) → s.shared.size = listed s.shared)) := by
  have hsound : Sound False s.shared s.place := reachable_sound (fun _ _ _ hallowed => hallowed) False.elim h
  refine ⟨⟨fun p hp => ?_, fun i p hi => ?_⟩, ?_, fun hbalanced => ?_⟩
  · rw [hsound.slab] at hp
    exact hsound.requests_le hp
  · rw [hsound.slab]
    exact hsound.held i p hi
  · rintro s' ⟨i, sh, l, m, hfits, hturn⟩ p hp hno
    obtain ⟨hsound', hfreed⟩ := turn_sound hsound hfits False.elim hturn
    rw [hsound.slab] at hp
    rw [hsound'.slab] at hno
    exact ⟨hfreed p hp hno, hno, fun hq => hno ((hsound'.queue p).mp hq), fun j hj => hno (hsound'.held j p hj)⟩
  · have hfollowed : Sound True s.shared s.place :=
      reachable_sound (fun _ _ _ hallowed => (Bool.and_eq_true _ _ ▸ hallowed).1)
        (fun _ _ _ _ hallowed => (Bool.and_eq_true _ _ ▸ hallowed).2) hbalanced
    have hlisted := hfollowed.listed_eq
    refine ⟨hlisted, fun hidle => ?_⟩
    rw [hlisted, removing_eq_zero hidle, Int.sub_zero]

omit [Fintype P] in
theorem reach_turn {allowed : Shared → Place → Move → Bool} {node : Ptr → Node} {s : State P Shared Place}
    (h : Reachable (Turns inactive allowed) (start P node) s) (i : P) (m : Move) (sh' : Shared) (l : Place)
    (hallowed : allowed s.shared (s.place i) m = true)
    (hturn : turn inactive s.shared (s.place i) m = some (sh', l)) :
    Reachable (Turns inactive allowed) (start P node) ⟨sh', Function.update s.place i l⟩ :=
  h.step (.turn s i sh' l ⟨m, hallowed, hturn⟩)

-- A file of the cache, with the node that the loader makes of it
def blank : Node :=
  { key := [], count := 0, uses := 0, validMsec := 0, error := 0, existsFlag := false, updating := false
    deleting := false, uniq := 0, expire := 0, validSec := 0, bodyStart := 0, fsSize := 0 }

def loadedOne : Shared := add 10 0 ⟨fun _ => blank, ∅, [], ∅, 0, true⟩ [] 1 none (some 1)

def visitor : Cache :=
  { key := [], minUses := 1, error := 0, validSec := 0, validMsec := 0, bodyStart := 0, uniq := 0, fsSize := 0
    existsFlag := false, updating := false, node := 0 }

def takenOne : Shared × Cache := (useNode 10 5 loadedOne visitor 1).2

def takenState : State Bool Shared Place :=
  ⟨takenOne.1, Function.update (Function.update (fun _ => .idle) true .idle) false (.held takenOne.2)⟩

theorem accounting_exact_taken :
    takenState.shared.size = listed takenState.shared - removing takenState.shared ∧
      requests 1 takenState.place ≤ (takenState.shared.node 1).count := by
  have hfits : Reachable (Turns 10 fits) (start Bool fun _ => blank) takenState :=
    reach_turn (reach_turn .start true (.add 0 [] 1 none (some 1)) loadedOne .idle rfl rfl) false
      (.lookup visitor 5 (some 1) none) takenOne.1 (.held takenOne.2) rfl rfl
  have hbalanced : Reachable (Turns 10 balanced) (start Bool fun _ => blank) takenState :=
    reach_turn (reach_turn .start true (.add 0 [] 1 none (some 1)) loadedOne .idle rfl rfl) false
      (.lookup visitor 5 (some 1) none) takenOne.1 (.held takenOne.2) rfl rfl
  obtain ⟨hprotected, -, hsize⟩ := accounting_exact hfits
  exact ⟨(hsize hbalanced).1, hprotected.requests_le 1 (by decide)⟩

-- The manager finds it expired and unlocks to delete the file.
def removingOne : Shared := (delete loadedOne 1).1

-- A request comes for it in the meantime, and the node stays.
def visitedOne : Shared × Cache := (useNode 10 10 removingOne visitor 1).2

def keptOne : Shared := deleted visitedOne.1 1

theorem size_not_always :
    ¬ ∀ s : State Bool Shared Place, Reachable (Turns 10 fun _ _ _ => true) (start Bool fun _ => blank) s →
      s.shared.size = listed s.shared := by
  intro hall
  have h₀ : Reachable (Turns 10 fun _ _ _ => true) (start Bool fun _ => blank) (start Bool fun _ => blank) := .start
  have h₁ := reach_turn h₀ true (.add 0 [] 1 none (some 1)) loadedOne .idle rfl rfl
  have h₂ := reach_turn h₁ true (.expire 10 1) removingOne (.deleting 1 .expire) rfl rfl
  have h₃ := reach_turn h₂ false (.lookup visitor 10 (some 1) none) visitedOne.1 (.held visitedOne.2) rfl rfl
  have h₄ := reach_turn h₃ true (.deleted 10 1) keptOne .idle rfl rfl
  have hsize := hall _ h₄
  exact absurd hsize (by decide)

end Nginx.FileCache
