import Nginx.Http.Listening.Sorted

namespace Nginx.Listening

variable {C : Type} {addrs addrs' : List (ConfAddr C)} {sockets : List (Socket C)}

theorem HasWildcard.perm (h : addrs.Perm addrs') : HasWildcard addrs ↔ HasWildcard addrs' := by
  simp [HasWildcard, h.mem_iff]

theorem needed_perm (h : addrs.Perm addrs') : (needed addrs).Perm (needed addrs') := by
  unfold needed
  by_cases hwild : HasWildcard addrs
  · rw [if_pos hwild, if_pos ((HasWildcard.perm h).mp hwild)]
    exact h.filter _
  · rw [if_neg hwild, if_neg fun h' => hwild ((HasWildcard.perm h).mpr h')]
    exact h

-- The order of the addresses does not matter for what is meant.
theorem Exact.perm (hperm : addrs.Perm addrs') (h : Exact addrs sockets) : Exact addrs' sockets := by
  refine ⟨h.listening.trans ((needed_perm hperm).map _), h.attached.trans (hperm.map _), fun a ha => ?_⟩
  simp only [HasWildcard.perm hperm.symm]
  exact h.home a (hperm.mem_iff.mpr ha)

theorem exact_perm_iff (hperm : addrs.Perm addrs') : Exact addrs sockets ↔ Exact addrs' sockets :=
  ⟨Exact.perm hperm, Exact.perm hperm.symm⟩

theorem flatMap_own (addrs : List (ConfAddr C)) :
    (addrs.map fun a => (⟨a, [inAddr a]⟩ : Socket C)).flatMap (·.addrs) = addrs.map inAddr := by
  rw [List.flatMap_map, List.map_eq_flatMap]

-- A socket for each address is what is meant unless a wildcard makes one of them superfluous.
theorem exact_each_iff (addrs : List (ConfAddr C)) :
    Exact addrs (addrs.map fun a => ⟨a, [inAddr a]⟩) ↔
      HasWildcard addrs → ∀ a ∈ addrs, a.bind = true ∨ a.wildcard = true := by
  constructor
  · intro h hwild a ha
    have hlen := h.listening.length_eq
    rw [List.length_map, List.length_map, List.length_map, needed, if_pos hwild] at hlen
    have hall := List.length_filter_eq_length_iff.mp hlen.symm a ha
    simpa using hall
  · intro hall
    have hneeded : needed addrs = addrs := by
      unfold needed
      split
      · rename_i hwild
        exact List.filter_eq_self.mpr fun a ha => by simpa using hall hwild a ha
      · rfl
    refine ⟨?_, ?_, fun a ha => ⟨⟨a, [inAddr a]⟩, List.mem_map_of_mem ha, by simp, ?_⟩⟩
    · rw [hneeded, List.map_map]
      exact List.Perm.refl _
    · rw [flatMap_own]
    · split
      · rename_i h
        rcases hall h.1 a ha with hbind | hw
        · rw [h.2] at hbind
          cases hbind
        · exact hw
      · rfl

-- The wildcard takes over the addresses without a socket of their own.
theorem exact_taken {bs us : List (ConfAddr C)} {w w' : ConfAddr C} (hw : w.wildcard = true)
    (hbs : ∀ b ∈ bs, Bound b) (hus : ∀ u ∈ us, Unbound u) (hsame : inAddr w' = inAddr w)
    (hw' : w'.wildcard = true) :
    Exact (bs ++ us ++ [w])
      ((bs.map fun b => ⟨b, [inAddr b]⟩) ++ [⟨w', us.map inAddr ++ [inAddr w]⟩]) := by
  have hwild : HasWildcard (bs ++ us ++ [w]) := ⟨w, by simp, hw⟩
  have hsock : w'.sockaddr = w.sockaddr := congrArg InAddr.sockaddr hsame
  refine ⟨?_, ?_, fun a ha => ?_⟩
  · have hneeded : needed (bs ++ us ++ [w]) = bs ++ [w] := by
      have hkeep : bs.filter (fun a => a.bind || a.wildcard) = bs :=
        List.filter_eq_self.mpr fun b hb => by simp [(hbs b hb).2]
      have hdrop : us.filter (fun a => a.bind || a.wildcard) = [] :=
        List.filter_eq_nil_iff.mpr fun u hu => by simp [(hus u hu).1, (hus u hu).2]
      rw [needed, if_pos hwild, List.filter_append, List.filter_append, hkeep, hdrop]
      simp [hw]
    rw [hneeded]
    simp [hsock, Function.comp_def]
  · rw [List.flatMap_append, flatMap_own]
    simp
  · have hcases : a ∈ bs ∨ a ∈ us ∨ a = w := by simpa using ha
    rcases hcases with hb | hu | rfl
    · refine ⟨⟨a, [inAddr a]⟩, by simp [hb], by simp, ?_⟩
      rw [if_neg (by simp [(hbs a hb).2])]
    · refine ⟨⟨w', us.map inAddr ++ [inAddr w]⟩, by simp, by simp [List.mem_map_of_mem hu], ?_⟩
      rw [if_pos ⟨hwild, (hus a hu).2⟩]
      exact hw'
    · refine ⟨⟨w', us.map inAddr ++ [inAddr a]⟩, by simp, by simp, ?_⟩
      split
      · exact hw'
      · exact hsock

theorem Exact.home_unique (h : Exact addrs sockets) (hdistinct : (addrs.map (·.sockaddr)).Nodup)
    {s s' : Socket C} (hs : s ∈ sockets) (hs' : s' ∈ sockets) {x : InAddr C} (hx : x ∈ s.addrs)
    (hx' : x ∈ s'.addrs) : s = s' := by
  have hnodup : (addrs.map inAddr).Nodup := by
    apply List.Nodup.of_map InAddr.sockaddr
    rw [List.map_map]
    exact hdistinct
  have hflat := h.attached.nodup_iff.mpr hnodup
  obtain ⟨-, hdisjoint⟩ := List.nodup_flatMap.mp hflat
  by_contra hne
  have : Std.Symm (Function.onFun List.Disjoint fun s : Socket C => s.addrs) :=
    ⟨fun _ _ hab _ hx hy => hab hy hx⟩
  exact hdisjoint.forall hs hs' hne hx hx'

-- The first bound address behind one that is not bound gets the configuration of that one.
theorem not_exact_misplaced {bs us rest : List (ConfAddr C)} {u b : ConfAddr C}
    (hdistinct : ((bs ++ (u :: us) ++ b :: rest).map (·.sockaddr)).Nodup)
    (hwild : HasWildcard (bs ++ (u :: us) ++ b :: rest)) (hu : u.bind = false) (hb : b.wildcard = false)
    (hmem : ⟨b, [inAddr u]⟩ ∈ sockets) : ¬Exact (bs ++ (u :: us) ++ b :: rest) sockets := by
  intro h
  obtain ⟨s, hs, hin, hhome⟩ := h.home u (by simp)
  rw [if_pos ⟨hwild, hu⟩] at hhome
  have heq := h.home_unique hdistinct hs hmem hin (by simp)
  rw [heq, hb] at hhome
  cases hhome

theorem exists_split {α : Type} (p : α → Bool) (l : List α) :
    ∃ xs rest, l = xs ++ rest ∧ (∀ x ∈ xs, p x = true) ∧ ∀ y ys, rest = y :: ys → p y = false := by
  induction l with
  | nil => exact ⟨[], [], rfl, by simp, by simp⟩
  | cons a l ih =>
      cases ha : p a with
      | false =>
          refine ⟨[], a :: l, rfl, by simp, fun y ys h => ?_⟩
          cases h
          exact ha
      | true =>
          obtain ⟨xs, rest, rfl, hxs, hrest⟩ := ih
          refine ⟨a :: xs, rest, rfl, fun x hx => ?_, hrest⟩
          rcases List.mem_cons.mp hx with rfl | hx
          · exact ha
          · exact hxs x hx

-- Where the loop does not find the addresses ready it gives a configuration to a wrong socket.
theorem ready_or_misplaced (init : List (ConfAddr C)) (w : ConfAddr C) (hw : w.wildcard = true) :
    Ready (init ++ [w]) ∨
      ∃ bs us u b rest, init = bs ++ (u :: us) ++ b :: rest ∧ (∀ a ∈ bs, a.bind = true) ∧
        u.bind = false ∧ (∀ a ∈ us, a.bind = false) ∧ b.bind = true := by
  obtain ⟨bs, tail, rfl, hbs, htail⟩ := exists_split (fun a : ConfAddr C => a.bind) init
  cases tail with
  | nil => exact .inl (.inr (.inr ⟨bs, [], w, by simp, hw, hbs, by simp⟩))
  | cons u tail =>
      have hu : u.bind = false := htail u tail rfl
      obtain ⟨us, rest, rfl, hus, hrest⟩ := exists_split (fun a : ConfAddr C => !a.bind) tail
      have hus : ∀ a ∈ us, a.bind = false := fun a ha => by simpa using hus a ha
      cases rest with
      | nil =>
          refine .inl (.inr (.inr ⟨bs, u :: us, w, by simp, hw, hbs, fun a ha => ?_⟩))
          rcases List.mem_cons.mp ha with rfl | ha
          · exact hu
          · exact hus a ha
      | cons b rest =>
          have hb : b.bind = true := by simpa using hrest b rest rfl
          exact .inr ⟨bs, us, u, b, rest, by simp, hbs, hu, hus, hb⟩

theorem initListening_exact_iff (addrs : List (ConfAddr C)) (hne : addrs ≠ [])
    (hdistinct : (addrs.map (·.sockaddr)).Nodup) (hsingle : addrs.countP (·.wildcard) ≤ 1) :
    ∃ sockets, initListening addrs = some sockets ∧ (Exact addrs sockets ↔ Ready addrs) := by
  obtain ⟨init, last, rfl⟩ : ∃ init last, addrs = init ++ [last] :=
    ⟨addrs.dropLast, addrs.getLast hne, (List.dropLast_append_getLast hne).symm⟩
  rw [List.countP_append] at hsingle
  have hget : (init ++ [last]).getLast? = some last := by simp
  have hdrop : (init ++ [last]).dropLast = init := by simp
  unfold initListening
  rw [hget, hdrop]
  dsimp only
  by_cases hwild : last.wildcard = true
  case neg =>
      rw [if_neg hwild]
      refine ⟨_, rfl, ?_⟩
      rw [listen_each, exact_each_iff]
      constructor
      · intro hall
        by_cases hhas : HasWildcard (init ++ [last])
        · exact .inr (.inl (hall hhas))
        · refine .inl fun a ha => ?_
          by_contra hw
          exact hhas ⟨a, ha, Bool.not_eq_false _ ▸ hw⟩
      · rintro (hnone | hall | ⟨bs, us, w, hsplit, hw, -⟩) hhas
        · obtain ⟨a, ha, hw⟩ := hhas
          rw [hnone a ha] at hw
          cases hw
        · exact hall
        · have hlast := congrArg List.getLast? hsplit
          simp only [List.getLast?_append, List.getLast?_singleton, Option.some_or, Option.some.injEq] at hlast
          exact absurd (hlast ▸ hw) hwild
  case pos =>
      rw [if_pos hwild]
      refine ⟨_, rfl, ?_⟩
      have hinit : ∀ a ∈ init, a.wildcard = false := by
        have hone : [last].countP (·.wildcard) = 1 := by simp [hwild]
        have hzero : init.countP (·.wildcard) = 0 := by omega
        intro a ha
        simpa using List.countP_eq_zero.mp hzero a ha
      constructor
      · intro hexact
        rcases ready_or_misplaced init last hwild with hready | ⟨bs, us, u, b, rest, rfl, hbs, hu, hus, hb⟩
        · exact hready
        · exfalso
          have hlist : bs ++ (u :: us) ++ b :: rest ++ [last] = bs ++ (u :: us) ++ b :: (rest ++ [last]) := by simp
          rw [hlist] at hexact hdistinct
          refine not_exact_misplaced hdistinct ⟨last, by simp, hwild⟩ hu (hinit b (by simp)) ?_ hexact
          have hrun : bs ++ (u :: us) ++ b :: rest ++ [{ last with bind := true }] =
              bs ++ ((u :: us) ++ b :: (rest ++ [{ last with bind := true }])) := by simp
          have hall : ∀ a ∈ u :: us, a.bind = false := by
            intro a ha
            rcases List.mem_cons.mp ha with rfl | ha
            · exact hu
            · exact hus a ha
          rw [hrun, listen_bounds bs hbs (by simp), listen_skip (u :: us) _ b 0 (Nat.zero_le _) hall hb,
            if_neg (by simp), if_neg (by simp)]
          exact List.mem_append_right _ (by simp [addAddrs])
      · intro hready
        obtain ⟨bs, us, rfl, hbs, hus⟩ : ∃ bs us, init = bs ++ us ∧ (∀ b ∈ bs, b.bind = true) ∧
            ∀ u ∈ us, u.bind = false := by
          rcases hready with hnone | hall | ⟨bs, us, w, hsplit, -, hbs, hus⟩
          · have := hnone last (by simp)
            rw [hwild] at this
            cases this
          · refine ⟨init, [], by simp, fun b hb => ?_, by simp⟩
            rcases hall b (by simp [hb]) with h | h
            · exact h
            · rw [hinit b hb] at h
              cases h
          · exact ⟨bs, us, (List.append_inj' hsplit rfl).1, hbs, hus⟩
        rw [List.append_assoc bs us [{ last with bind := true }], listen_bounds bs hbs (by simp),
          listen_wildcard us _ hus rfl]
        exact exact_taken hwild (fun b hb => ⟨hinit b (by simp [hb]), hbs b hb⟩)
          (fun u hu => ⟨hinit u (by simp [hu]), hus u hu⟩) rfl hwild

-- The condition under which a port gets its sockets.
def ReadyFor (alloc : Bool) (addrs : List (ConfAddr C)) : Prop :=
  if alloc then InOrder addrs else Ready addrs

theorem optimizeServers_exact_iff (alloc : Bool) (port : Port C) :
    ∃ sockets, optimizeServers alloc port.addrs = some sockets ∧
      (Exact port.addrs sockets ↔ ReadyFor alloc port.addrs) := by
  obtain ⟨addrs, hne, hdistinct, hsingle⟩ := port
  unfold optimizeServers sort ReadyFor
  cases alloc with
  | false =>
      simp only [Bool.false_eq_true, if_false]
      exact initListening_exact_iff addrs hne hdistinct hsingle
  | true =>
      simp only [if_true]
      have hperm := Queue.sort_perm cmpConfAddrs addrs
      obtain ⟨sockets, hrun, hexact⟩ := initListening_exact_iff (Queue.sort cmpConfAddrs addrs)
        (fun hnil => hne (List.Perm.eq_nil (hnil ▸ hperm.symm)))
        ((hperm.map _).nodup_iff.mpr hdistinct) (by rw [hperm.countP_eq]; exact hsingle)
      refine ⟨sockets, hrun, ?_⟩
      rw [← exact_perm_iff hperm, hexact, sort_ready_iff addrs hsingle]

-- listen 127.0.0.1:80; listen *:80 bind;
def lateWildcard : Port Unit where
  addrs := [⟨1, false, false, ()⟩, ⟨0, true, true, ()⟩]
  nonempty := by decide
  distinct := by decide
  single := by decide

theorem late_wildcard_two_sockets :
    optimizeServers true lateWildcard.addrs =
        some [⟨⟨0, true, true, ()⟩, [⟨0, ()⟩]⟩, ⟨⟨1, false, false, ()⟩, [⟨1, ()⟩]⟩] ∧
      ¬∃ sockets, optimizeServers true lateWildcard.addrs = some sockets ∧ Exact lateWildcard.addrs sockets := by
  have hrun : optimizeServers true lateWildcard.addrs =
      some [⟨⟨0, true, true, ()⟩, [⟨0, ()⟩]⟩, ⟨⟨1, false, false, ()⟩, [⟨1, ()⟩]⟩] := by
    have hsort : sort true cmpConfAddrs lateWildcard.addrs =
        [⟨0, true, true, ()⟩, ⟨1, false, false, ()⟩] := by decide
    rw [optimizeServers, hsort]
    simp [initListening, listen_each, inAddr]
  refine ⟨hrun, ?_⟩
  rintro ⟨sockets, hsome, hexact⟩
  rw [hrun] at hsome
  cases hsome
  have hlen := hexact.listening.length_eq
  simp [needed, lateWildcard, HasWildcard] at hlen

end Nginx.Listening
