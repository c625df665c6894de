import Nginx.Http.LimitZone

namespace Nginx.LimitZone

open LinkedTree Rbtree

-- What holds of the zone and the registered cleanups between two moves.
structure Sound (s : Ptr) (w : World) (t : Linked Bool) : Prop where
  tree : Keyed hash s w.zone.nodes w.zone.key w.zone.len w.zone.data t
  slab : w.zone.slab.Perm t.toList
  conn : ∀ p ∈ t.toList, w.zone.conn p = pointing w p
  positive : ∀ p ∈ t.toList, 0 < w.zone.conn p
  small : ∀ p ∈ t.toList, w.zone.conn p ≤ 65535
  owner : ∀ c ∈ w.cleanups, ∀ p, c.node = some p → p ∈ t.toList ∧ w.zone.data p = c.key

variable {s p node : Ptr} {w w' : World} {ζ : Zone} {t : Linked Bool} {cleanups : List Cleanup} {data : Bytes}

theorem pointing_cons (c : Cleanup) (p : Ptr) :
    pointing ⟨ζ, c :: cleanups⟩ p = pointing ⟨ζ, cleanups⟩ p + if c.node = some p then 1 else 0 := by
  simp [pointing, List.countP_cons]

theorem pointing_perm {ζ' : Zone} {cleanups' : List Cleanup} (h : cleanups.Perm cleanups') (p : Ptr) :
    pointing ⟨ζ, cleanups⟩ p = pointing ⟨ζ', cleanups'⟩ p :=
  h.countP_eq _

-- The requests of a key are those whose cleanups point to its node.
theorem Sound.admitted_eq (h : Sound s w t) (hp : p ∈ t.toList) :
    admitted w (w.zone.data p) = pointing w p := by
  apply List.countP_congr
  intro c hc
  cases hnode : c.node with
  | none => simp
  | some q =>
      obtain ⟨hq, hdata⟩ := h.owner c hc q hnode
      simp only [Option.isSome_some, Bool.true_and, decide_eq_true_eq, Option.some.injEq, ← hdata]
      exact ⟨fun heq => h.tree.unique hq hp heq, fun heq => by rw [heq]⟩

theorem Sound.refused (h : Sound s ⟨ζ, cleanups⟩ t) : Sound s ⟨ζ, ⟨none, data⟩ :: cleanups⟩ t := by
  refine ⟨h.tree, h.slab, fun p hp => ?_, h.positive, h.small, fun c hc p hnode => ?_⟩
  · rw [pointing_cons]
    exact h.conn p hp
  · rcases List.mem_cons.mp hc with rfl | hc
    · cases hnode
    · exact h.owner c hc p hnode

theorem Sound.counted (h : Sound s ⟨ζ, cleanups⟩ t) (hp : p ∈ t.toList) (hsmall : ζ.conn p < 65535) :
    Sound s ⟨{ ζ with conn := put ζ.conn p ((ζ.conn p + 1) % 65536) }, ⟨some p, ζ.data p⟩ :: cleanups⟩ t := by
  have hnext : (ζ.conn p + 1) % 65536 = ζ.conn p + 1 := by omega
  rw [hnext]
  refine ⟨h.tree, h.slab, fun q hq => ?_, fun q hq => ?_, fun q hq => ?_, fun c hc q hnode => ?_⟩
  · have hconn := h.conn q hq
    rw [pointing_cons]
    by_cases hqp : q = p
    · subst hqp
      simpa [put, pointing] using hconn
    · have hpq : p ≠ q := Ne.symm hqp
      simpa [put, hqp, hpq, pointing] using hconn
  · have hpos := h.positive q hq
    by_cases hqp : q = p
    · simp [put, hqp]
    · simpa [put, hqp] using hpos
  · have hle := h.small q hq
    by_cases hqp : q = p
    · simp only [put, hqp, if_true]
      omega
    · simpa [put, hqp] using hle
  · rcases List.mem_cons.mp hc with rfl | hc
    · cases hnode
      exact ⟨hp, rfl⟩
    · exact h.owner c hc q hnode

theorem Sound.created (h : Sound s ⟨ζ, cleanups⟩ t) (fuel : Nat) (hnew : node ∉ ζ.slab) (hs : node ≠ s)
    (h0 : node ≠ 0) (hdata : ∀ q ∈ t.toList, ζ.data q ≠ data) (hlen : data.length ≤ 255)
    (hfuel : t.toList.length < fuel) :
    ∃ ζ' t', create fuel s ζ node data = some ζ' ∧ Sound s ⟨ζ', ⟨some node, data⟩ :: cleanups⟩ t' ∧
      t'.toList.length = t.toList.length + 1 ∧ ζ'.conn node = 1 ∧ node ∈ t'.toList ∧ ζ'.data node = data := by
  have hmem : node ∉ t.toList := fun hn => hnew (h.slab.mem_iff.mpr hn)
  have hne : ∀ q ∈ t.toList, q ≠ node := fun q hq heq => hmem (heq ▸ hq)
  have hput : ∀ {β : Type} (f : Ptr → β) (v : β), ∀ q ∈ t.toList, put f node v q = f q :=
    fun f v q hq => if_neg (hne q hq)
  have hself : ∀ {β : Type} (f : Ptr → β) (v : β), put f node v node = v := fun f v => if_pos rfl
  have htree := h.tree.congr (hput ζ.key (hash data)) (hput ζ.len (data.length % 256)) (hput ζ.data data)
  obtain ⟨H, t', hrun, hkeyed, hperm⟩ := htree.insert fuel hmem hs h0
    (by rw [hself, hself]) (by rw [hself, hself]; omega)
    (fun q hq => by rw [hput _ _ q hq, hself]; exact hdata q hq) hfuel
  have hin : ∀ q ∈ t'.toList, q = node ∨ q ∈ t.toList := fun q hq => List.mem_cons.mp (hperm.mem_iff.mp hq)
  have hnode : node ∈ t'.toList := hperm.mem_iff.mpr (by simp)
  have hnone : pointing ⟨ζ, cleanups⟩ node = 0 := by
    apply List.countP_eq_zero.mpr
    intro c hc hpoint
    exact hmem (h.owner c hc node (by simpa using hpoint)).1
  refine ⟨{ ζ with
    slab := node :: ζ.slab, key := put ζ.key node (hash data), len := put ζ.len node (data.length % 256),
    conn := put ζ.conn node 1, data := put ζ.data node data, nodes := H }, t', ?_, ?_, ?_, hself _ _, hnode,
    hself _ _⟩
  · unfold create
    exact congrArg (fun found : Option Nodes => found.bind fun H => some { ζ with
      slab := node :: ζ.slab, key := put ζ.key node (hash data),
      len := put ζ.len node (data.length % 256), conn := put ζ.conn node 1,
      data := put ζ.data node data, nodes := H }) hrun
  · refine ⟨hkeyed, (h.slab.cons node).trans hperm.symm, fun q hq => ?_, fun q hq => ?_, fun q hq => ?_,
      fun c hc q hpoint => ?_⟩
    · rw [pointing_cons]
      rcases hin q hq with rfl | hq
      · have hone : pointing ⟨ζ, cleanups⟩ q + 1 = 1 := by omega
        simpa [put, pointing] using hone.symm
      · have hqn := Ne.symm (hne q hq)
        simpa [put, hne q hq, hqn, pointing] using h.conn q hq
    · rcases hin q hq with rfl | hq
      · simp [put]
      · simpa [put, hne q hq] using h.positive q hq
    · rcases hin q hq with rfl | hq
      · simp [put]
      · simpa [put, hne q hq] using h.small q hq
    · rcases List.mem_cons.mp hc with rfl | hc
      · cases hpoint
        exact ⟨hnode, hself _ _⟩
      · obtain ⟨hq, hkey⟩ := h.owner c hc q hpoint
        exact ⟨hperm.mem_iff.mpr (List.mem_cons_of_mem _ hq), (hput ζ.data data q hq).trans hkey⟩
  · rw [hperm.length_eq, List.length_cons]

-- Under the lock. An admitted request finds at most its limit of requests with its key.
theorem locked_spec (fuel : Nat) (conf : Conf) (alloc : List Ptr → Nat → Option Ptr)
    (h : Sound s ⟨ζ, cleanups⟩ t) (hlen : data.length ≤ 255)
    (hfresh : ∀ live n node, alloc live n = some node → node ∉ live ∧ node ≠ s ∧ node ≠ 0)
    (hfuel : t.toList.length < fuel) :
    ∃ answer node ζ' t', locked fuel s ζ conf alloc data = some (answer, node, ζ') ∧
      Sound s ⟨ζ', ⟨node, data⟩ :: cleanups⟩ t' ∧ t'.toList.length ≤ t.toList.length + 1 ∧
      (answer = .declined → admitted ⟨ζ', ⟨node, data⟩ :: cleanups⟩ data ≤ conf.conn) := by
  obtain ⟨p, hsearch, hp⟩ := h.tree.search data fuel hfuel
  have hpos := conf.positive
  have hsmall := conf.small
  unfold locked
  simp only [hsearch, Option.bind_eq_bind, Option.bind_some]
  rcases hp with ⟨hmem, hdata⟩ | ⟨rfl, hnone⟩
  · have hps : p ≠ s := h.tree.valid.distinct.ne_sentinel hmem
    rw [if_pos hps]
    by_cases hroom : ζ.conn p < conf.conn
    · rw [if_pos hroom]
      have hcounted := h.counted hmem (by omega)
      rw [hdata] at hcounted
      refine ⟨_, _, _, t, rfl, hcounted, Nat.le_succ _, fun _ => ?_⟩
      have hcount := hcounted.admitted_eq hmem
      rw [hdata] at hcount
      rw [hcount, ← hcounted.conn p hmem]
      simp only [put, if_true]
      omega
    · rw [if_neg hroom]
      exact ⟨_, _, _, t, rfl, h.refused, Nat.le_succ _, fun hanswer => by cases hanswer⟩
  · rw [if_neg (not_not.mpr rfl)]
    cases halloc : alloc ζ.slab (nodeSize data.length) with
    | none => exact ⟨_, _, _, t, rfl, h.refused, Nat.le_succ _, fun hanswer => by cases hanswer⟩
    | some node =>
        obtain ⟨hnew, hns, hn0⟩ := hfresh _ _ _ halloc
        obtain ⟨ζ', t', hrun, hcreated, hlength, hconn, hnode, hkey⟩ :=
          h.created fuel hnew hns hn0 hnone hlen hfuel
        simp only [hrun, Option.bind_some]
        refine ⟨_, _, _, t', rfl, hcreated, Nat.le_of_eq hlength, fun _ => ?_⟩
        have hcount := hcreated.admitted_eq hnode
        rw [hkey] at hcount
        rw [hcount, ← hcreated.conn node hnode, hconn]
        exact hpos

def Fresh (s : Ptr) : Move → Prop
  | .handle r => ∀ live n node, r.alloc live n = some node → node ∉ live ∧ node ≠ s ∧ node ≠ 0
  | .cleanup _ => True

-- A request that is let through with a location and a key is one of at most as many as the limit says.
def WithinLimit (m : Move) (answer : Answer) (w : World) : Prop :=
  match m with
  | .handle r => ∀ conf data, r.limited = some (conf, data) → answer = .declined →
      admitted w data ≤ conf.conn
  | .cleanup _ => True

theorem handler_spec (fuel : Nat) (r : Request) (h : Sound s w t) (hfresh : Fresh s (.handle r))
    (hfuel : t.toList.length < fuel) :
    ∃ answer set w' t', handler fuel s w r = some (answer, set, w') ∧ Sound s w' t' ∧
      t'.toList.length ≤ t.toList.length + 1 ∧ WithinLimit (.handle r) answer w' := by
  obtain ⟨ζ, cleanups⟩ := w
  unfold handler
  cases hlimited : r.limited with
  | none =>
      refine ⟨_, _, _, t, rfl, h, Nat.le_succ _, fun conf data hsome _ => ?_⟩
      rw [hlimited] at hsome
      cases hsome
  | some pair =>
      obtain ⟨conf, data⟩ := pair
      have hlen : data.length ≤ 255 := by
        unfold Request.limited at hlimited
        split at hlimited
        · cases hlimited
        · split at hlimited
          · split at hlimited
            · cases hlimited
            · cases hlimited
              omega
          · cases hlimited
      dsimp only
      cases hadd : r.cleanupAdd with
      | false =>
          rw [if_neg (by decide)]
          exact ⟨_, _, _, t, rfl, h, Nat.le_succ _, fun _ _ _ hanswer => by cases hanswer⟩
      | true =>
          obtain ⟨answer, node, ζ', t', hrun, hsound, hlength, hbound⟩ :=
            locked_spec fuel conf r.alloc h hlen hfresh hfuel
          rw [if_pos rfl]
          simp only [hrun, Option.bind_eq_bind, Option.bind_some]
          refine ⟨_, _, _, t', rfl, hsound, hlength, fun conf' data' hsome hanswer => ?_⟩
          rw [hlimited] at hsome
          cases hsome
          exact hbound hanswer

-- The pool forgets a record after its handler has run.
theorem Sound.dropped (h : Sound s ⟨ζ, cleanups⟩ t) {c : Cleanup} {rest : List Cleanup}
    (hperm : cleanups.Perm (c :: rest)) (hnode : c.node = none) : Sound s ⟨ζ, rest⟩ t := by
  refine ⟨h.tree, h.slab, fun p hp => ?_, h.positive, h.small, fun c' hc' => ?_⟩
  · have hconn := h.conn p hp
    have hperms : pointing ⟨ζ, cleanups⟩ p = pointing ⟨ζ, c :: rest⟩ p := pointing_perm hperm p
    rw [hperms, pointing_cons, hnode] at hconn
    exact hconn
  · exact h.owner c' (hperm.mem_iff.mpr (List.mem_cons_of_mem _ hc'))

theorem cleanup_spec (fuel : Nat) (h : Sound s ⟨ζ, cleanups⟩ t) {c : Cleanup} {rest : List Cleanup}
    (hperm : cleanups.Perm (c :: rest)) (hnode : c.node = some p) (hfuel : t.toList.length < fuel) :
    ∃ ζ' t', cleanup fuel s ζ p = some ζ' ∧ Sound s ⟨ζ', rest⟩ t' ∧ t'.toList.length ≤ t.toList.length := by
  have hp : p ∈ t.toList := (h.owner c (hperm.mem_iff.mpr (by simp)) p hnode).1
  have hsub : ∀ c' ∈ rest, c' ∈ cleanups := fun c' hc' => hperm.mem_iff.mpr (List.mem_cons_of_mem _ hc')
  have hcount : ∀ q ∈ t.toList, ζ.conn q = pointing ⟨ζ, rest⟩ q + if p = q then 1 else 0 := by
    intro q hq
    have hconn := h.conn q hq
    have hperms : pointing ⟨ζ, cleanups⟩ q = pointing ⟨ζ, c :: rest⟩ q := pointing_perm hperm q
    rw [hperms, pointing_cons, hnode] at hconn
    simpa using hconn
  have hself := hcount p hp
  rw [if_pos rfl] at hself
  have hsmall := h.small p hp
  have hprev : (ζ.conn p + 65535) % 65536 = pointing ⟨ζ, rest⟩ p := by
    have := h.small p hp
    dsimp only at this
    omega
  have hother : ∀ q ∈ t.toList, q ≠ p → ζ.conn q = pointing ⟨ζ, rest⟩ q := by
    intro q hq hqp
    have hq' := hcount q hq
    rwa [if_neg (Ne.symm hqp)] at hq'
  unfold cleanup
  rw [hprev]
  dsimp only
  by_cases hzero : pointing ⟨ζ, rest⟩ p = 0
  · rw [if_pos hzero]
    have hkeys : ∀ q, q ≠ p → put ζ.key p 0 q = ζ.key q := fun q hq => if_neg hq
    obtain ⟨H, t', hrun, hkeyed, hremoved, hgone⟩ := h.tree.delete fuel hp hkeys hfuel
    have hmem : ∀ q ∈ t'.toList, q ∈ t.toList ∧ q ≠ p := fun q hq =>
      ⟨hremoved.mem_iff.mpr (List.mem_cons_of_mem _ hq), fun heq => hgone (heq ▸ hq)⟩
    simp only [hrun, Option.bind_eq_bind, Option.bind_some]
    refine ⟨_, t', rfl, ⟨hkeyed, ?_, fun q hq => ?_, fun q hq => ?_, fun q hq => ?_, fun c' hc' q hpoint => ?_⟩, ?_⟩
    · have herase := (h.slab.trans hremoved).erase p
      simpa using herase
    · simpa [put, (hmem q hq).2, pointing] using hother q (hmem q hq).1 (hmem q hq).2
    · simpa [put, (hmem q hq).2] using h.positive q (hmem q hq).1
    · simpa [put, (hmem q hq).2] using h.small q (hmem q hq).1
    · obtain ⟨hq, hkey⟩ := h.owner c' (hsub c' hc') q hpoint
      have hqp : q ≠ p := by
        rintro rfl
        exact absurd (by simpa using hpoint) (List.countP_eq_zero.mp hzero c' hc')
      exact ⟨(List.mem_cons.mp (hremoved.mem_iff.mp hq)).resolve_left hqp, hkey⟩
    · have hlen := hremoved.length_eq
      rw [List.length_cons] at hlen
      omega
  · rw [if_neg hzero]
    refine ⟨_, t, rfl, ⟨h.tree, h.slab, fun q hq => ?_, fun q hq => ?_, fun q hq => ?_, fun c' hc' => ?_⟩,
      Nat.le_refl _⟩
    · by_cases hqp : q = p
      · subst hqp
        simp [put, pointing]
      · simpa [put, hqp, pointing] using hother q hq hqp
    · by_cases hqp : q = p
      · simp only [put, hqp, if_true]
        omega
      · simpa [put, hqp] using h.positive q hq
    · by_cases hqp : q = p
      · simp only [put, hqp, if_true]
        dsimp only at hsmall
        omega
      · simpa [put, hqp] using h.small q hq
    · exact h.owner c' (hsub c' hc')

theorem step_spec (fuel : Nat) (m : Move) (h : Sound s w t) (hfresh : Fresh s m)
    (hfuel : t.toList.length < fuel) :
    ∃ answer w' t', step fuel s w m = some (answer, w') ∧ Sound s w' t' ∧
      t'.toList.length ≤ t.toList.length + 1 ∧ WithinLimit m answer w' := by
  cases m with
  | handle r =>
      obtain ⟨answer, set, w', t', hrun, hrest⟩ := handler_spec fuel r h hfresh hfuel
      exact ⟨answer, w', t', by simp [step, hrun], hrest⟩
  | cleanup i =>
      obtain ⟨ζ, cleanups⟩ := w
      unfold step
      dsimp only
      cases hget : cleanups[i]? with
      | none => exact ⟨_, _, t, rfl, h, Nat.le_succ _, trivial⟩
      | some c =>
          obtain ⟨hi, hc⟩ := List.getElem?_eq_some_iff.mp hget
          have hperm : cleanups.Perm (c :: cleanups.eraseIdx i) := by
            have := List.getElem_cons_eraseIdx_perm hi
            rw [hc] at this
            exact this.symm
          dsimp only
          cases hnode : c.node with
          | none => exact ⟨_, _, t, rfl, h.dropped hperm hnode, Nat.le_succ _, trivial⟩
          | some p =>
              obtain ⟨ζ', t', hrun, hsound, hlength⟩ := cleanup_spec fuel h hperm hnode hfuel
              simp only [hrun, Option.bind_eq_bind, Option.bind_some]
              exact ⟨_, _, t', rfl, hsound, Nat.le_succ_of_le hlength, trivial⟩

-- The zone as a reader of the tree sees it.
structure Consistent (s : Ptr) (w : World) : Prop where
  conn : ∀ p, Reach w.zone.nodes s p → w.zone.conn p = pointing w p
  positive : ∀ p, Reach w.zone.nodes s p → 1 ≤ w.zone.conn p
  unique : ∀ p q, Reach w.zone.nodes s p → Reach w.zone.nodes s q → w.zone.data p = w.zone.data q → p = q
  present : ∀ c ∈ w.cleanups, ∀ p, c.node = some p → Reach w.zone.nodes s p ∧ w.zone.data p = c.key

theorem Sound.consistent (h : Sound s w t) : Consistent s w := by
  have hreach : ∀ p, Reach w.zone.nodes s p ↔ p ∈ t.toList :=
    reach_iff h.tree.valid.focus h.tree.valid.distinct
  refine ⟨fun p hp => h.conn p ((hreach p).mp hp), fun p hp => h.positive p ((hreach p).mp hp),
    fun p q hp hq => h.tree.unique ((hreach p).mp hp) ((hreach q).mp hq), fun c hc p hnode => ?_⟩
  rw [hreach]
  exact h.owner c hc p hnode

theorem run_spec (fuel : Nat) (ms : List Move) (h : Sound s w t) (hfresh : ∀ m ∈ ms, Fresh s m)
    (hfuel : t.toList.length + ms.length < fuel) :
    ∃ log, run fuel s w ms = some log ∧ log.map (·.1) = ms ∧
      ∀ e ∈ log, Consistent s e.2.2 ∧ WithinLimit e.1 e.2.1 e.2.2 := by
  induction ms generalizing w t with
  | nil => exact ⟨[], rfl, rfl, by simp⟩
  | cons m ms ih =>
      rw [List.length_cons] at hfuel
      obtain ⟨answer, w', t', hstep, hsound, hlength, hwithin⟩ :=
        step_spec fuel m h (hfresh m (by simp)) (by omega)
      obtain ⟨log, hrun, hmap, hlog⟩ :=
        ih hsound (fun m' hm' => hfresh m' (List.mem_cons_of_mem _ hm')) (by omega)
      refine ⟨(m, answer, w') :: log, by simp [run, hstep, hrun], by simp [hmap], fun e he => ?_⟩
      rcases List.mem_cons.mp he with rfl | he
      · exact ⟨hsound.consistent, hwithin⟩
      · exact hlog e he

theorem start_sound (hs : s ≠ 0) (ζ : Zone) : Sound s (start s ζ) .nil := by
  refine ⟨⟨⟨⟨rfl, trivial, fun _ => trivial⟩, ⟨by simp, by simp, by simp⟩, ⟨rfl, trivial, 0, rfl⟩, ?_, hs⟩,
    by simp, by simp, by simp⟩, by simp [start], by simp, by simp, by simp, by simp [start]⟩
  simp [start]

-- A slab pool with room for one node.
def request (data : Bytes) : Request where
  limitZoneSet := false
  conf := some ⟨1, by decide, by decide⟩
  value := some data
  cleanupAdd := true
  alloc := fun live _ => if 2 ∈ live then none else some 2

def blank : Zone where
  nodes := ⟨fun _ _ => 0, fun _ => 0, fun _ => false, 0⟩
  key := fun _ => 0
  len := fun _ => 0
  conn := fun _ => 0
  data := fun _ => []
  slab := []

def twoClients : List Move :=
  [.handle (request [65]), .handle (request [65]), .handle (request [66]), .cleanup 2, .handle (request [65])]

example : (run 6 1 (start 1 blank) twoClients).map (fun log => log.map (·.2.1)) =
    some [.declined, .unavailable, .unavailable, .declined, .declined] := by decide

theorem request_fresh (data : Bytes) : Fresh 1 (.handle (request data)) := by
  intro live n node halloc
  simp only [request] at halloc
  split at halloc
  · cases halloc
  · cases halloc
    exact ⟨‹_›, by decide, by decide⟩

end Nginx.LimitZone
