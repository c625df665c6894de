import Nginx.Event.Timer

namespace Nginx.Timer

open LinkedTree LinkedTree.Linked Rbtree SerialOrder

-- The events without the tree: what a call makes of them.
def after (σ : Timers) : Call → Timers
  | .add ev timer =>
      let σ' := { σ with asked := Function.update σ.asked ev (deadline σ timer) }
      if kept σ ev timer then σ' else σ'.armed ev (deadline σ timer)
  | .del ev =>
      { σ with key := Function.update σ.key ev 0, timerSet := Function.update σ.timerSet ev false }

-- A pending event whose key is not after the current time.
def Expired (σ : Timers) (ev : Ptr) : Prop := σ.timerSet ev = true ∧ minus (σ.key ev) σ.now ≤ 0

instance (σ : Timers) (ev : Ptr) : Decidable (Expired σ ev) :=
  inferInstanceAs (Decidable (σ.timerSet ev = true ∧ minus (σ.key ev) σ.now ≤ 0))

-- The key of every pending event is close to the deadline asked for last.
def Near (σ : Timers) : Prop :=
  ∀ ev, σ.timerSet ev = true → (minus (σ.asked ev) (σ.key ev)).natAbs < 300

-- The deadline is not the one opposite to the key of a pending event.
def NotOpposite (σ : Timers) (ev : Ptr) (timer : Nat) : Prop :=
  σ.timerSet ev = true → toInt64 (deadline σ timer - σ.key ev) ≠ -2 ^ 63

section Runs

variable (fuel : Nat) (s : Ptr) (evs : List Ptr) (ok : Timers → Ptr → Nat → Prop)

-- A timer is deleted while it is pending, and one that is armed keeps the window.
def Allowed (σ : Timers) : Call → Prop
  | .add ev timer => ev ∈ evs ∧ ok σ ev timer ∧
      (kept σ ev timer = false → Windowed (σ.armed ev (deadline σ timer)))
  | .del ev => σ.timerSet ev = true

-- A handler does not arm a timer that has expired already.
def Fresh (σ : Timers) : Call → Prop
  | .add ev timer => kept σ ev timer = false → 0 < minus (deadline σ timer) σ.now
  | .del _ => True

def CallsOk : Timers → List Call → Prop
  | _, [] => True
  | σ, c :: cs => Allowed evs ok σ c ∧ Fresh σ c ∧ ∀ σ', call fuel s σ c = some σ' → CallsOk σ' cs

-- Every handler that ngx_event_expire_timers comes to makes such calls.
def Orderly (handler : Ptr → List Call) : Nat → Timers → Prop
  | 0, _ => True
  | n + 1, σ => ∀ ev σ', turn fuel s σ = some (some (ev, σ')) →
      CallsOk fuel s evs ok σ' (handler ev) ∧
      ∀ σ'', (handler ev).foldlM (call fuel s) σ' = some σ'' → Orderly handler n σ''

inductive Run : Timers → Prop
  | init {σ} : Run (timerInit s σ)
  | tick {σ} (d : Nat) : Run σ → Windowed { σ with now := (σ.now + d) % 2 ^ 64 } →
      Run { σ with now := (σ.now + d) % 2 ^ 64 }
  | call {σ c σ'} : Run σ → Allowed evs ok σ c → call fuel s σ c = some σ' → Run σ'
  | expire {σ handler fired σ'} : Run σ → Orderly fuel s evs ok handler fuel σ →
      expireTimers fuel s handler fuel σ = some (fired, σ') → Run σ'

-- What ngx_event_expire_timers has done when it returns.
structure Expires (handler : Ptr → List Call) (σ : Timers) (fired : List Fired) (σ' : Timers) : Prop where
  due : ∀ f ∈ fired, Expired σ f.ev ∧ f.key = σ.key f.ev
  near : ∀ f ∈ fired, (minus f.asked f.key).natAbs < 300
  once : (fired.map Fired.ev).Nodup
  earliest : fired.Pairwise fun f g => 0 ≤ minus g.key f.key
  rest : ∀ ev, ¬Expired σ' ev
  all : ∀ ev, Expired σ ev →
    ev ∈ fired.map Fired.ev ∨ ∃ f ∈ fired, ∃ c ∈ handler f.ev, c.ev = ev

-- The three functions in a state.
structure Exact (σ : Timers) : Prop where
  calls : ∀ c, Allowed evs ok σ c → ∃ σ', call fuel s σ c = some σ'
  idle : (∀ ev, σ.timerSet ev = false) → findTimer fuel s σ = some (2 ^ 64 - 1)
  find : (∃ ev, σ.timerSet ev = true) → ∃ ev, σ.timerSet ev = true ∧
    (∀ q, σ.timerSet q = true → 0 ≤ minus (σ.key q) (σ.key ev)) ∧
    findTimer fuel s σ = some (max 0 (minus (σ.key ev) σ.now)).toNat
  expire : ∀ handler, Orderly fuel s evs ok handler fuel σ → ∃ fired σ',
    expireTimers fuel s handler fuel σ = some (fired, σ') ∧ Expires handler σ fired σ'

variable {fuel s evs ok} {σ : Timers} {t : Linked Bool}

theorem call_sound (h : Sound s evs σ t) (hevs : ∀ ev ∈ evs, ev ≠ 0 ∧ ev ≠ s) (hfuel : evs.length < fuel)
    (c : Call) (hc : Allowed evs ok σ c) :
    ∃ H t', call fuel s σ c = some { after σ c with nodes := H } ∧
      Sound s evs { after σ c with nodes := H } t' := by
  cases c with
  | del ev =>
      obtain ⟨H, t', hrun, hsound⟩ := delTimer_sound h fuel ev hc hfuel
      exact ⟨H, t', hrun, hsound⟩
  | add ev timer =>
      obtain ⟨hev, -, hw⟩ := hc
      by_cases hkept : kept σ ev timer = true
      · refine ⟨σ.nodes, t, by simp [call, addTimer, after, hkept], ?_⟩
        simp only [after, hkept, if_true]
        exact ⟨h.valid, h.pending, h.known, h.sorted, h.windowed⟩
      · have hw := hw (by simpa using hkept)
        by_cases hset : σ.timerSet ev = true
        · obtain ⟨H₁, t₁, hdel, h₁⟩ := delTimer_sound h fuel ev hset hfuel
          have hw₁ : Windowed (Timers.armed { σ with
              nodes := H₁
              key := Function.update σ.key ev 0
              timerSet := Function.update σ.timerSet ev false } ev (deadline σ timer)) := by
            refine hw.mono rfl fun p hp => ?_
            simpa [Timers.armed] using hp
          obtain ⟨H, t', hrun, hsound⟩ := insert_sound h₁ fuel ev (deadline σ timer) hev (hevs ev hev)
            (by simp) hw₁ hfuel
          simp only [Function.update_idem] at hrun
          refine ⟨H, t', ?_, ?_⟩
          · simp [call, addTimer, after, hkept, hset, hdel, hrun, Timers.armed]
          · simp only [after, hkept, Bool.false_eq_true, if_false]
            simp only [Timers.armed, Function.update_idem] at hsound
            exact ⟨hsound.valid, hsound.pending, hsound.known, hsound.sorted, hsound.windowed⟩
        · obtain ⟨H, t', hrun, hsound⟩ := insert_sound h fuel ev (deadline σ timer) hev (hevs ev hev)
            (by simpa using hset) hw hfuel
          refine ⟨H, t', ?_, ?_⟩
          · simp [call, addTimer, after, hkept, hset, hrun, Timers.armed]
          · simp only [after, hkept, Bool.false_eq_true, if_false]
            exact ⟨hsound.valid, hsound.pending, hsound.known, hsound.sorted, hsound.windowed⟩

theorem natAbs_of_msecAbs (d : Int) (hlow : -2 ^ 63 < d) (h : msecAbs d < lazyDelay) : d.natAbs < 300 := by
  unfold msecAbs lazyDelay at h
  split at h
  · omega
  · by_cases hd : d ≤ -300
    · by_cases hup : -d < 2 ^ 63
      · rw [toInt64_of_range (-d) (by omega) hup] at h
        omega
      · omega
    · omega

theorem minus_cast (a k : Nat) : minus a k = toInt64 ((a : Int) - k) := by
  rw [minus, toInt64, toInt64, toInt64, toInt64, Int.bmod_sub_bmod, Int.sub_bmod_bmod]

theorem neg_lt_toInt64 (d : Int) (hne : toInt64 d ≠ -2 ^ 63) : -2 ^ 63 < toInt64 d := by
  unfold toInt64 at hne ⊢
  rw [Int.bmod_def] at hne ⊢
  split <;> omega

theorem after_now (σ : Timers) (c : Call) : (after σ c).now = σ.now := by
  cases c with
  | add ev timer =>
      simp only [after]
      split <;> rfl
  | del ev => rfl

theorem near_after (hok : ∀ σ ev timer, ok σ ev timer → NotOpposite σ ev timer) (h : Near σ) (c : Call)
    (hc : Allowed evs ok σ c) : Near (after σ c) := by
  intro p hp
  cases c with
  | del ev =>
      have hpe : p ≠ ev := by
        rintro rfl
        simp [after] at hp
      simp only [after, Function.update_of_ne hpe] at hp ⊢
      exact h p hp
  | add ev timer =>
      by_cases hpe : p = ev
      · subst hpe
        by_cases hkept : kept σ p timer = true
        · simp only [after, hkept, if_true, Function.update_self] at hp ⊢
          have hnear := (Bool.and_eq_true_iff.mp hkept).2
          rw [decide_eq_true_eq] at hnear
          have hne := hok σ p timer hc.2.1 hp
          have hlow := neg_lt_toInt64 _ hne
          rw [minus_cast]
          exact natAbs_of_msecAbs _ hlow hnear
        · simp only [after, hkept, Bool.false_eq_true, if_false, Timers.armed, Function.update_self,
            minus_eq, diff_self]
          decide
      · by_cases hkept : kept σ ev timer = true
        · simp only [after, hkept, if_true, Function.update_of_ne hpe] at hp ⊢
          exact h p hp
        · simp only [after, hkept, Bool.false_eq_true, if_false, Timers.armed,
            Function.update_of_ne hpe] at hp ⊢
          exact h p hp

-- What calls of handlers leave of the expired events.
structure Later (cs : List Call) (σ σ' : Timers) : Prop where
  now : σ'.now = σ.now
  old : ∀ ev, Expired σ' ev → Expired σ ev ∧ σ'.key ev = σ.key ev
  left : ∀ ev, Expired σ ev → Expired σ' ev ∨ ∃ c ∈ cs, c.ev = ev

theorem Later.cons {σ₁ σ₂ : Timers} {c : Call} {cs : List Call} (h : Later [c] σ σ₁) (h' : Later cs σ₁ σ₂) :
    Later (c :: cs) σ σ₂ where
  now := h'.now.trans h.now
  old ev hev := by
    obtain ⟨h₁, hkey₁⟩ := h'.old ev hev
    obtain ⟨h₀, hkey₀⟩ := h.old ev h₁
    exact ⟨h₀, hkey₁.trans hkey₀⟩
  left ev hev := by
    rcases h.left ev hev with h₁ | ⟨d, hd, heq⟩
    · rcases h'.left ev h₁ with h₂ | ⟨d, hd, heq⟩
      · exact .inl h₂
      · exact .inr ⟨d, List.mem_cons_of_mem _ hd, heq⟩
    · exact .inr ⟨d, List.mem_singleton.mp hd ▸ List.mem_cons_self, heq⟩

theorem later_after (c : Call) (hfresh : Fresh σ c) (H : Nodes) :
    Later [c] σ { after σ c with nodes := H } := by
  -- only the event of the call changes, and it does not become expired
  have hother : ∀ p, p ≠ c.ev →
      (after σ c).timerSet p = σ.timerSet p ∧ (after σ c).key p = σ.key p := by
    intro p hp
    cases c with
    | del ev => exact ⟨Function.update_of_ne hp _ _, Function.update_of_ne hp _ _⟩
    | add ev timer =>
        have hpe : p ≠ ev := hp
        simp only [after]
        split
        · exact ⟨rfl, rfl⟩
        · exact ⟨Function.update_of_ne hpe _ _, Function.update_of_ne hpe _ _⟩
  have hself : Expired { after σ c with nodes := H } c.ev →
      Expired σ c.ev ∧ (after σ c).key c.ev = σ.key c.ev := by
    intro hexp
    cases c with
    | del ev =>
        have hset := hexp.1
        simp [after, Call.ev] at hset
    | add ev timer =>
        by_cases hkept : kept σ ev timer = true
        · simp only [after, hkept, if_true] at hexp ⊢
          exact ⟨hexp, trivial⟩
        · have hle := hexp.2
          simp only [after, hkept, Bool.false_eq_true, if_false, Timers.armed, Call.ev,
            Function.update_self] at hle
          have hlt := hfresh (by simpa using hkept)
          omega
  refine ⟨after_now σ c, fun p hp => ?_, fun p hp => ?_⟩
  · by_cases hpe : p = c.ev
    · subst hpe
      exact hself hp
    · obtain ⟨hset, hkey⟩ := hother p hpe
      refine ⟨⟨hset.symm.trans hp.1, ?_⟩, hkey⟩
      rw [← hkey, ← after_now σ c]
      exact hp.2
  · by_cases hpe : p = c.ev
    · exact .inr ⟨c, List.mem_singleton_self c, hpe.symm⟩
    · obtain ⟨hset, hkey⟩ := hother p hpe
      refine .inl ⟨hset.trans hp.1, ?_⟩
      have hle := hp.2
      rw [← hkey, ← after_now σ c] at hle
      exact hle

theorem calls_spec (hok : ∀ σ ev timer, ok σ ev timer → NotOpposite σ ev timer)
    (hevs : ∀ ev ∈ evs, ev ≠ 0 ∧ ev ≠ s) (hfuel : evs.length < fuel) (cs : List Call)
    (h : Sound s evs σ t) (hnear : Near σ) (hcs : CallsOk fuel s evs ok σ cs) :
    ∃ σ' t', cs.foldlM (call fuel s) σ = some σ' ∧ Sound s evs σ' t' ∧ Near σ' ∧ Later cs σ σ' := by
  induction cs generalizing σ t with
  | nil => exact ⟨σ, t, rfl, h, hnear, rfl, fun _ hev => ⟨hev, rfl⟩, fun _ hev => .inl hev⟩
  | cons c cs ih =>
      obtain ⟨hc, hfresh, hrest⟩ := hcs
      obtain ⟨H, t₁, hrun, h₁⟩ := call_sound h hevs hfuel c hc
      have hnear₁ : Near { after σ c with nodes := H } := near_after hok hnear c hc
      obtain ⟨σ', t', hruns, h', hnear', hlater⟩ := ih h₁ hnear₁ (hrest _ hrun)
      refine ⟨σ', t', ?_, h', hnear', (later_after c hfresh H).cons hlater⟩
      rw [List.foldlM_cons, hrun]
      exact hruns

-- The leftmost node, and its key against the keys of the other pending events and the time.
theorem first_spec (h : Sound s evs σ t) (hfuel : evs.length < fuel) (hne : t ≠ nil) :
    ∃ ev, Rbtree.min s σ.nodes fuel σ.nodes.root = some ev ∧ σ.timerSet ev = true ∧
      (∀ q, σ.timerSet q = true → 0 ≤ minus (σ.key q) (σ.key ev)) ∧
      ∀ q, Expired σ q → Expired σ ev := by
  have hlen := h.length
  obtain ⟨gs, y, c, u, -, hmin, hlist⟩ := min_spec fuel t h.valid.holds hne (by omega)
  have hy : y ∈ t.toList := by
    rw [hlist]
    exact List.mem_cons_self
  have hle : ∀ q, σ.timerSet q = true → 0 ≤ minus (σ.key q) (σ.key y) := by
    intro q hq
    have hsorted := h.sorted
    rw [hlist] at hsorted
    have hq := (h.pending q).mp hq
    rw [hlist] at hq
    rcases List.mem_cons.mp hq with rfl | hq
    · have hzero : minus (σ.key q) (σ.key q) = 0 := by rw [minus_eq, diff_self]
      exact Int.le_of_eq hzero.symm
    · exact List.rel_of_pairwise_cons hsorted hq
  refine ⟨y, h.valid.focus.root_eq ▸ hmin, (h.pending y).mpr hy, hle, fun q hq => ?_⟩
  have hset := (h.pending y).mpr hy
  obtain ⟨b, hnow, hkeys⟩ := h.windowed
  refine ⟨hset, ?_⟩
  have hqy := hle q hq.1
  have hqn := hq.2
  rw [minus_eq] at hqy hqn ⊢
  have htrans := diff_trans half_pos (hkeys q hq.1) (hkeys y hset) hnow
  omega

theorem turn_spec (h : Sound s evs σ t) (hfuel : evs.length < fuel) :
    (turn fuel s σ = some none ∧ ∀ ev, ¬Expired σ ev) ∨
      ∃ ev σ' t', turn fuel s σ = some (some (ev, σ')) ∧ Sound s evs σ' t' ∧ Expired σ ev ∧
        (∀ q, σ.timerSet q = true → 0 ≤ minus (σ.key q) (σ.key ev)) ∧
        σ'.now = σ.now ∧ σ'.asked = σ.asked ∧ σ'.timerSet = Function.update σ.timerSet ev false ∧
        σ'.key = Function.update σ.key ev 0 := by
  by_cases hne : t = nil
  · refine .inl ⟨?_, fun ev hev => ?_⟩
    · simp [turn, (root_eq_sentinel h.valid).mpr hne]
    · have hmem := (h.pending ev).mp hev.1
      rw [hne] at hmem
      simp at hmem
  · have hroot : σ.nodes.root ≠ s := fun heq => hne ((root_eq_sentinel h.valid).mp heq)
    obtain ⟨ev, hmin, hset, hle, hfirst⟩ := first_spec h hfuel hne
    by_cases hexp : minus (σ.key ev) σ.now ≤ 0
    · obtain ⟨H, t', hdel, h'⟩ := delTimer_sound h fuel ev hset hfuel
      let σ' := { after σ (.del ev) with nodes := H, timedout := Function.update σ.timedout ev true }
      have hrun : turn fuel s σ = some (some (ev, σ')) := by
        unfold turn
        rw [if_neg hroot, hmin, Option.bind_eq_bind, Option.bind_some, if_pos hexp, hdel]
        rfl
      have hsound : Sound s evs σ' t' :=
        ⟨h'.valid, h'.pending, h'.known, h'.sorted, h'.windowed.mono rfl fun _ hp => ⟨hp, rfl⟩⟩
      exact .inr ⟨ev, σ', t', hrun, hsound, ⟨hset, hexp⟩, hle, rfl, rfl, rfl, rfl⟩
    · refine .inl ⟨?_, fun q hq => hexp (hfirst q hq).2⟩
      unfold turn
      rw [if_neg hroot, hmin, Option.bind_eq_bind, Option.bind_some, if_neg hexp]
      rfl

-- The events left to expire.
def dueCount (evs : List Ptr) (σ : Timers) : Nat := evs.countP fun ev => decide (Expired σ ev)

theorem dueCount_lt {σ' : Timers} (hold : ∀ ev, Expired σ' ev → Expired σ ev) (ev : Ptr) (hev : ev ∈ evs)
    (hexp : Expired σ ev) (hnot : ¬Expired σ' ev) : dueCount evs σ' < dueCount evs σ := by
  unfold dueCount
  have hsplit := List.append_of_mem hev
  obtain ⟨l, r, rfl⟩ := hsplit
  have hl := List.countP_mono_left (l := l) (p := fun ev => decide (Expired σ' ev))
    (q := fun ev => decide (Expired σ ev)) fun p _ hp => by simpa using hold p (by simpa using hp)
  have hr := List.countP_mono_left (l := r) (p := fun ev => decide (Expired σ' ev))
    (q := fun ev => decide (Expired σ ev)) fun p _ hp => by simpa using hold p (by simpa using hp)
  simp only [List.countP_append, List.countP_cons, hexp, hnot, decide_true, decide_false, if_true]
  simp only [Bool.false_eq_true, if_false]
  omega

theorem expire_spec (hok : ∀ σ ev timer, ok σ ev timer → NotOpposite σ ev timer)
    (hevs : ∀ ev ∈ evs, ev ≠ 0 ∧ ev ≠ s) (hfuel : evs.length < fuel) (handler : Ptr → List Call) (n : Nat)
    (h : Sound s evs σ t) (hnear : Near σ) (ho : Orderly fuel s evs ok handler n σ)
    (hn : dueCount evs σ < n) :
    ∃ fired σ' t', expireTimers fuel s handler n σ = some (fired, σ') ∧ Sound s evs σ' t' ∧ Near σ' ∧
      Expires handler σ fired σ' := by
  induction n generalizing σ t with
  | zero => omega
  | succ n ih =>
      rcases turn_spec h hfuel with ⟨hturn, hnone⟩ |
        ⟨ev, σ₁, t₁, hturn, h₁, hexp, hle, hnow, hasked, hset, hkey⟩
      · refine ⟨[], σ, t, by simp [expireTimers, hturn], h, hnear, ?_⟩
        exact ⟨nofun, nofun, List.nodup_nil, .nil, hnone, fun ev hev => absurd hev (hnone ev)⟩
      · obtain ⟨hcs, hnext⟩ := ho ev σ₁ hturn
        have hother : ∀ p, p ≠ ev → (Expired σ₁ p ↔ Expired σ p) ∧ σ₁.key p = σ.key p := by
          intro p hp
          simp only [Expired, hset, hkey, hnow, Function.update_of_ne hp, and_self]
        have hgone : ¬Expired σ₁ ev := by
          intro hev
          have hfalse := hev.1
          simp [hset] at hfalse
        have hnear₁ : Near σ₁ := by
          intro p hp
          have hpe : p ≠ ev := by
            rintro rfl
            simp [hset] at hp
          rw [hasked, (hother p hpe).2]
          rw [hset, Function.update_of_ne hpe] at hp
          exact hnear p hp
        obtain ⟨σ₂, t₂, hcalls, h₂, hnear₂, hlater⟩ := calls_spec hok hevs hfuel (handler ev) h₁ hnear₁ hcs
        have hback : ∀ p, Expired σ₂ p → p ≠ ev ∧ Expired σ p ∧ σ₂.key p = σ.key p := by
          intro p hp
          obtain ⟨h₁, hkey₂⟩ := hlater.old p hp
          have hpe : p ≠ ev := by
            rintro rfl
            exact hgone h₁
          obtain ⟨hiff, hkey₁⟩ := hother p hpe
          exact ⟨hpe, hiff.mp h₁, hkey₂.trans hkey₁⟩
        have hlt : dueCount evs σ₂ < dueCount evs σ :=
          dueCount_lt (fun p hp => (hback p hp).2.1) ev (h.known ev ((h.pending ev).mp hexp.1)) hexp
            fun hev => (hback ev hev).1 rfl
        obtain ⟨fired, σ₃, t₃, hrest, h₃, hnear₃, hex⟩ := ih h₂ hnear₂ (hnext σ₂ hcalls) (by omega)
        refine ⟨⟨ev, σ.key ev, σ.asked ev⟩ :: fired, σ₃, t₃, ?_, h₃, hnear₃, ?_, ?_, ?_, ?_, hex.rest, ?_⟩
        · simp [expireTimers, hturn, hcalls, hrest]
        · intro f hf
          rcases List.mem_cons.mp hf with rfl | hf
          · exact ⟨hexp, rfl⟩
          · obtain ⟨hdue, heq⟩ := hex.due f hf
            obtain ⟨-, hold, hkey₂⟩ := hback f.ev hdue
            exact ⟨hold, heq.trans hkey₂⟩
        · intro f hf
          rcases List.mem_cons.mp hf with rfl | hf
          · exact hnear ev hexp.1
          · exact hex.near f hf
        · rw [List.map_cons, List.nodup_cons]
          refine ⟨fun hmem => ?_, hex.once⟩
          obtain ⟨f, hf, heq⟩ := List.mem_map.mp hmem
          exact (hback f.ev (hex.due f hf).1).1 heq
        · rw [List.pairwise_cons]
          refine ⟨fun f hf => ?_, hex.earliest⟩
          obtain ⟨hdue, heq⟩ := hex.due f hf
          obtain ⟨-, hold, hkey₂⟩ := hback f.ev hdue
          rw [heq, hkey₂]
          exact hle f.ev hold.1
        · intro p hp
          rw [List.map_cons, List.mem_cons]
          by_cases hpe : p = ev
          · exact .inl (.inl hpe)
          · rcases hlater.left p ((hother p hpe).1.mpr hp) with h₂ | ⟨c, hc, heq⟩
            · rcases hex.all p h₂ with hmem | ⟨f, hf, c, hc, heq⟩
              · exact .inl (.inr hmem)
              · exact .inr ⟨f, List.mem_cons_of_mem _ hf, c, hc, heq⟩
            · exact .inr ⟨_, List.mem_cons_self, c, hc, heq⟩

theorem run_sound (hok : ∀ σ ev timer, ok σ ev timer → NotOpposite σ ev timer) (hs : s ≠ 0)
    (hevs : ∀ ev ∈ evs, ev ≠ 0 ∧ ev ≠ s) (hfuel : evs.length < fuel) (h : Run fuel s evs ok σ) :
    ∃ t, Sound s evs σ t ∧ Near σ := by
  induction h with
  | @init σ => exact ⟨nil, timerInit_sound hs σ, nofun⟩
  | tick d _ hw ih =>
      obtain ⟨t, hsound, hnear⟩ := ih
      exact ⟨t, ⟨hsound.valid, hsound.pending, hsound.known, hsound.sorted, hw⟩, hnear⟩
  | call _ hc hrun ih =>
      obtain ⟨t, hsound, hnear⟩ := ih
      obtain ⟨H, t', hrun', h'⟩ := call_sound hsound hevs hfuel _ hc
      obtain rfl := Option.some.inj (hrun'.symm.trans hrun)
      exact ⟨t', h', near_after hok hnear _ hc⟩
  | @expire σ handler fired σ' _ ho hrun ih =>
      obtain ⟨t, hsound, hnear⟩ := ih
      have hdue : dueCount evs σ < fuel := Nat.lt_of_le_of_lt List.countP_le_length hfuel
      obtain ⟨fired', σ'', t', hrun', h', hnear', -⟩ :=
        expire_spec hok hevs hfuel handler fuel hsound hnear ho hdue
      obtain ⟨rfl, rfl⟩ := Prod.mk.inj (Option.some.inj (hrun'.symm.trans hrun))
      exact ⟨t', h', hnear'⟩

end Runs

section Instances

variable {ok : Timers → Ptr → Nat → Prop}

-- Below the sentinel 1, with the time at 0.
def start : Timers :=
  timerInit 1 ⟨⟨fun _ _ => 7, fun _ => 7, fun _ => true, 7⟩, fun _ => 0, fun _ => false, fun _ => false, 0,
    fun _ => 0⟩

-- The event 2 with a timer of 100 ms.
def oneTimer : Timers :=
  { after start (.add 2 100) with
    nodes := ((((start.nodes.setParent 2 0).setChild .left 2 1).setChild .right 2 1).setLabel 2 false).setRoot 2 }

theorem windowed_low {σ : Timers} (hnow : σ.now < 2 ^ 63)
    (hkey : ∀ ev, σ.timerSet ev = true → σ.key ev < 2 ^ 63) : Windowed σ := by
  have hlow : ∀ x : Nat, x < 2 ^ 63 → Within half 0 x := by
    intro x hx
    unfold Within offset half
    omega
  exact ⟨0, hlow _ hnow, fun ev hev => hlow _ (hkey ev hev)⟩

theorem oneTimer_pending (ev : Ptr) : oneTimer.timerSet ev = true ↔ ev = 2 := by
  by_cases hev : ev = 2
  · simp [hev, oneTimer, after, start, timerInit, kept, Timers.armed]
  · simp [hev, oneTimer, after, start, timerInit, kept, Timers.armed]

theorem oneTimer_run (h : ok start 2 100) : Run 2 1 [2] ok oneTimer := by
  have hcall : call 2 1 start (.add 2 100) = some oneTimer := rfl
  have hallowed : Allowed [2] ok start (.add 2 100) := by
    refine ⟨by decide, h, fun _ => windowed_low (by decide) fun ev hev => ?_⟩
    obtain rfl := (oneTimer_pending ev).mp hev
    decide
  exact .call .init hallowed hcall

theorem orderly_idle (n : Nat) (σ : Timers) : Orderly 2 1 [2] ok (fun _ => []) n σ := by
  induction n generalizing σ with
  | zero => trivial
  | succ n ih => exact fun ev σ' _ => ⟨trivial, fun σ'' _ => ih σ''⟩

end Instances

end Nginx.Timer
