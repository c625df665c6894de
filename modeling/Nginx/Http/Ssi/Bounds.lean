import Nginx.Http.Ssi

namespace Nginx.Http.Ssi

variable {m : Pool} {c c' : Ctx} {p : Nat} {ch : UInt8}

-- The states in which ctx->param is a parameter of the current command that may grow.
def State.inParam : State → Bool
  | .param | .preequal | .prevalue | .doubleQuotedValue | .quotedValue | .quotedSymbol | .postparam => true
  | _ => false

-- What the length tests rest on.
structure Sound (c : Ctx) : Prop where
  command : c.command.length ≤ commandLen
  kept : ∀ n, c.valueBuf = some n → n = c.valueLen
  current : c.state.inParam = true → ∃ q rest, c.params = q :: rest ∧ q.room = c.valueLen ∧
    q.value.length ≤ c.valueLen ∧ (c.state = .param → q.key.length ≤ paramLen)
  quoted : c.state = .quotedSymbol → c.savedState = .doubleQuotedValue ∨ c.savedState = .quotedValue

-- The two bytes that are stored without a test: a '-' in a parameter's name, and the byte behind
-- a backslash.
def Fits (c : Ctx) (ch : UInt8) : Prop :=
  (c.state = .param → ch = 45 → c.keyLen < paramLen) ∧ (c.state = .quotedSymbol → c.currentLen < c.valueLen)

def Safe (writes : List Write) : Prop := ∀ w ∈ writes, w.offset < w.room

theorem safe_nil : Safe [] := by
  intro w hw
  exact absurd hw List.not_mem_nil

theorem safe_single {w : Write} : Safe [w] ↔ w.offset < w.room := by simp [Safe]

theorem safe_append (ws ws' : List Write) : Safe (ws ++ ws') ↔ Safe ws ∧ Safe ws' := List.forall_mem_append

theorem sound_initial (valueLen : Nat) : Sound (initial valueLen) where
  command := Nat.zero_le _
  kept := by simp [initial]
  current := by simp [initial, State.inParam]
  quoted := by simp [initial]

-- A turn to a state without a parameter.
theorem Sound.outside (h : Sound c) (hcommand : c'.command.length ≤ commandLen) (hbuf : c'.valueBuf = c.valueBuf)
    (hlen : c'.valueLen = c.valueLen) (hout : c'.state.inParam = false) : Sound c' where
  command := hcommand
  kept := by
    rw [hbuf, hlen]
    exact h.kept
  current := by simp [hout]
  quoted := by
    intro hq
    rw [hq] at hout
    cases hout

-- A turn that keeps the parameter, to a state where its name is complete.
theorem Sound.inside (h : Sound c) (hin : c.state.inParam = true) (hparams : c'.params = c.params)
    (hcommand : c'.command = c.command) (hbuf : c'.valueBuf = c.valueBuf) (hlen : c'.valueLen = c.valueLen)
    (hparam : c'.state ≠ .param) (hquoted : c'.state ≠ .quotedSymbol) : Sound c' where
  command := by
    rw [hcommand]
    exact h.command
  kept := by
    rw [hbuf, hlen]
    exact h.kept
  current := by
    intro _
    obtain ⟨q, rest, hq, hroom, hvalue, _⟩ := h.current hin
    rw [hparams, hlen]
    exact ⟨q, rest, hq, hroom, hvalue, fun hs => absurd hs hparam⟩
  quoted := fun hs => absurd hs hquoted

theorem Sound.go (h : Sound c) {state : State} (hout : state.inParam = false) : Sound (c.go state).ctx :=
  h.outside h.command rfl rfl hout

-- What holds behind a turn: nothing was stored beyond an end, and the parser can go on.
def Turned (t : Turn) : Prop := Safe t.writes ∧ (t.rc ≠ some .error → Sound t.ctx)

theorem turned_go (h : Sound c) {state : State} (hout : state.inParam = false) : Turned (c.go state) :=
  ⟨safe_nil, fun _ => h.go hout⟩

theorem turned_fail (h : Sound c) {state : State} (log : String) (hout : state.inParam = false) :
    Turned (c.fail state log) :=
  ⟨safe_nil, fun _ => h.outside h.command rfl rfl hout⟩

theorem turned_leave (h : Sound c) (rc : Rc) : Turned (c.leave p rc) :=
  ⟨safe_nil, fun _ => h.outside h.command rfl rfl rfl⟩

theorem turned_maybe (h : Sound c) : Turned (c.maybe p ch) := by
  rw [Ctx.maybe]
  split
  · exact ⟨safe_nil, fun _ => h.outside h.command rfl rfl rfl⟩
  · exact ⟨safe_nil, fun _ => h.outside h.command rfl rfl rfl⟩

-- A byte for the value, where there is room for it.
theorem turned_pushValue (h : Sound c) (hin : c.state.inParam = true) (hroom : c.currentLen < c.valueLen) {state : State}
    (hparam : state ≠ .param) (hquoted : state ≠ .quotedSymbol ∨ c.savedState = .doubleQuotedValue ∨ c.savedState = .quotedValue) :
    Turned (c.pushValue ch state) := by
  obtain ⟨q, rest, hq, hsize, hvalue, _⟩ := h.current hin
  rw [Ctx.currentLen, hq] at hroom
  rw [Ctx.pushValue, hq]
  refine ⟨safe_single.mpr ?_, fun _ => ⟨h.command, h.kept, fun _ => ?_, fun hs => ?_⟩⟩
  · show q.value.length < q.room
    rw [hsize]
    exact hroom
  · refine ⟨{ q with value := q.value ++ [ch] }, rest, rfl, hsize, ?_, fun hs => absurd hs hparam⟩
    show (q.value ++ [ch]).length ≤ c.valueLen
    rw [List.length_append, List.length_singleton]
    exact hroom
  · exact hquoted.resolve_left fun hne => hne hs

-- The same behind the test that the two states in quotes make.
theorem turned_store (h : Sound c) (hin : c.state.inParam = true) {state : State} (log : String) (hparam : state ≠ .param)
    (hquoted : state ≠ .quotedSymbol ∨ c.savedState = .doubleQuotedValue ∨ c.savedState = .quotedValue) :
    Turned (if c.currentLen = c.valueLen then c.fail .error log else c.pushValue ch state) := by
  obtain ⟨q, rest, hq, _, hvalue, _⟩ := h.current hin
  have hle : c.currentLen ≤ c.valueLen := by
    rw [Ctx.currentLen, hq]
    exact hvalue
  by_cases hfull : c.currentLen = c.valueLen
  · rw [if_pos hfull]
    exact turned_fail h log rfl
  · rw [if_neg hfull]
    exact turned_pushValue h hin (by omega) hparam hquoted

theorem turned_valueState (h : Sound c) (hin : c.state.inParam = true) {self : State} (quote : UInt8)
    (hself : self = .doubleQuotedValue ∨ self = .quotedValue) : Turned (valueState c quote self ch) := by
  rw [valueState]
  by_cases hquote : ch = quote
  · rw [if_pos hquote]
    exact ⟨safe_nil, fun _ => h.inside hin rfl rfl rfl rfl State.noConfusion State.noConfusion⟩
  rw [if_neg hquote]
  by_cases hslash : ch = 92
  · rw [if_pos hslash]
    have hsaved : Sound { c with savedState := self } := ⟨h.command, h.kept, h.current, fun _ => hself⟩
    apply turned_store hsaved hin
    · exact State.noConfusion
    · exact .inr hself
  · rw [if_neg hslash]
    apply turned_store h hin
    · obtain rfl | rfl := hself <;> exact State.noConfusion
    · obtain rfl | rfl := hself <;> exact .inl State.noConfusion

-- The value that is kept: its memory goes to value_buf, a copy of its own size stays.
theorem keepValue_spec (h : Sound c) (hin : c.state.inParam = true) {writes : List Write} (hk : keepValue m c = some (c', writes)) :
    Safe writes ∧ c'.command = c.command ∧ c'.valueLen = c.valueLen ∧ ∀ n, c'.valueBuf = some n → n = c'.valueLen := by
  obtain ⟨q, rest, hq, hroom, _, _⟩ := h.current hin
  rw [keepValue, hq] at hk
  dsimp only at hk
  split at hk
  · split at hk
    · cases hk
    · cases hk
      refine ⟨?_, rfl, rfl, ?_⟩
      · intro w hw
        obtain ⟨i, hi, rfl⟩ := List.mem_map.mp hw
        have hlt := List.mem_range.mp hi
        show i < q.value.length + 1
        omega
      · intro n hn
        cases hn
        exact hroom
  · cases hk
    exact ⟨safe_nil, rfl, rfl, fun n hn => by cases hn⟩

-- A turn keeps inside of its buffers when the byte fits.
theorem turn_fits (h : Sound c) (hfits : Fits c ch) : Turned (turn m c p ch) := by
  obtain ⟨hname, hsymbol⟩ := hfits
  cases hs : c.state with
  | start =>
      simp only [turn, hs]
      split
      · exact turned_maybe h
      · exact turned_go h rfl
  | tag =>
      simp only [turn, hs]
      split
      · exact ⟨safe_nil, fun _ => h.outside h.command rfl rfl rfl⟩
      split
      · exact ⟨safe_nil, fun _ => h.outside h.command rfl rfl rfl⟩
      · exact turned_maybe h
  | comment0 =>
      simp only [turn, hs]
      split
      · exact ⟨safe_nil, fun _ => h.outside h.command rfl rfl rfl⟩
      · exact turned_maybe h
  | comment1 =>
      simp only [turn, hs]
      split
      · exact ⟨safe_nil, fun _ => h.outside h.command rfl rfl rfl⟩
      · exact turned_maybe h
  | sharp =>
      simp only [turn, hs]
      split
      · exact ⟨safe_nil, fun _ => h.outside h.command rfl rfl rfl⟩
      · exact turned_maybe h
  | precommand =>
      simp only [turn, hs]
      split
      · exact turned_go h rfl
      split
      · exact ⟨safe_nil, fun hne => absurd rfl hne⟩
      · exact ⟨safe_single.mpr (by decide), fun _ => h.outside (show 1 ≤ 32 by decide) rfl rfl rfl⟩
  | command =>
      simp only [turn, hs]
      split
      · exact turned_go h rfl
      split
      · exact turned_go h rfl
      split
      · exact turned_fail h _ rfl
      · rename_i hlen
        have hcommand := h.command
        refine ⟨safe_single.mpr ?_, fun _ => h.outside ?_ rfl rfl rfl⟩
        · show c.command.length < commandLen
          omega
        · show (c.command ++ [ch]).length ≤ commandLen
          rw [List.length_append, List.length_singleton]
          omega
  | preparam =>
      simp only [turn, hs]
      split
      · exact turned_go h rfl
      split
      · exact turned_go h rfl
      split
      · exact ⟨safe_nil, fun hne => absurd rfl hne⟩
      · refine ⟨safe_single.mpr (by decide), fun _ => ⟨h.command, h.kept, fun _ => ?_, fun hq => State.noConfusion hq⟩⟩
        refine ⟨_, c.params, rfl, ?_, Nat.zero_le _, fun _ => show 1 ≤ 32 by decide⟩
        cases hb : c.valueBuf with
        | none => rfl
        | some n => exact h.kept n hb
  | param =>
      have hin : c.state.inParam = true := by rw [hs]; rfl
      obtain ⟨q, rest, hq, hroom, hvalue, hkey⟩ := h.current hin
      have hkeyLen : c.keyLen = q.key.length := by rw [Ctx.keyLen, hq]; rfl
      simp only [turn, hs]
      split
      · exact ⟨safe_nil, fun _ => h.inside hin rfl rfl rfl rfl State.noConfusion State.noConfusion⟩
      split
      · exact ⟨safe_nil, fun _ => h.inside hin rfl rfl rfl rfl State.noConfusion State.noConfusion⟩
      split
      · rename_i hdash
        rw [Ctx.pushKey, hq]
        refine ⟨safe_single.mpr ?_, fun _ => h.outside h.command rfl rfl rfl⟩
        rw [← hkeyLen]
        exact hname hs hdash
      split
      · exact turned_fail h _ rfl
      · rename_i hlen
        have hle := hkey hs
        rw [Ctx.pushKey, hq]
        refine ⟨safe_single.mpr ?_, fun _ => ⟨h.command, h.kept, fun _ => ?_, fun hc => State.noConfusion hc⟩⟩
        · show q.key.length < paramLen
          omega
        · refine ⟨{ q with key := q.key ++ [ch] }, rest, rfl, hroom, hvalue, fun _ => ?_⟩
          show (q.key ++ [ch]).length ≤ paramLen
          rw [List.length_append, List.length_singleton]
          omega
  | preequal =>
      have hin : c.state.inParam = true := by rw [hs]; rfl
      simp only [turn, hs]
      split
      · exact ⟨safe_nil, fun _ => h.inside hin rfl rfl rfl rfl State.noConfusion State.noConfusion⟩
      split
      · exact ⟨safe_nil, fun _ => h.inside hin rfl rfl rfl rfl State.noConfusion State.noConfusion⟩
      · apply turned_fail h
        split <;> rfl
  | prevalue =>
      have hin : c.state.inParam = true := by rw [hs]; rfl
      simp only [turn, hs]
      split
      · exact ⟨safe_nil, fun _ => h.inside hin rfl rfl rfl rfl State.noConfusion State.noConfusion⟩
      split
      · exact ⟨safe_nil, fun _ => h.inside hin rfl rfl rfl rfl State.noConfusion State.noConfusion⟩
      split
      · exact ⟨safe_nil, fun _ => h.inside hin rfl rfl rfl rfl State.noConfusion State.noConfusion⟩
      · apply turned_fail h
        split <;> rfl
  | doubleQuotedValue =>
      simp only [turn, hs]
      exact turned_valueState h (by rw [hs]; rfl) 34 (.inl rfl)
  | quotedValue =>
      simp only [turn, hs]
      exact turned_valueState h (by rw [hs]; rfl) 39 (.inr rfl)
  | quotedSymbol =>
      have hback := h.quoted hs
      simp only [turn, hs]
      apply turned_pushValue h (by rw [hs]; rfl) (hsymbol hs)
      · obtain hb | hb := hback <;> rw [hb] <;> exact State.noConfusion
      · exact .inr hback
  | postparam =>
      have hin : c.state.inParam = true := by rw [hs]; rfl
      simp only [turn, hs]
      cases hk : keepValue m c with
      | none => exact ⟨safe_nil, fun hne => absurd rfl hne⟩
      | some kept =>
          obtain ⟨c', writes⟩ := kept
          obtain ⟨hsafe, hcommand, hlen, hbuf⟩ := keepValue_spec h hin hk
          have hc : ∀ state : State, state.inParam = false → Sound { c' with state } := by
            intro state hout
            refine ⟨by rw [hcommand]; exact h.command, hbuf, fun hi => ?_, fun hq => ?_⟩
            · rw [hout] at hi
              cases hi
            · dsimp only at hq
              rw [hq] at hout
              cases hout
          dsimp only
          split
          · exact ⟨hsafe, fun _ => hc _ rfl⟩
          split
          · exact ⟨hsafe, fun _ => hc _ rfl⟩
          · exact ⟨hsafe, fun _ => hc _ rfl⟩
  | commentEnd0 =>
      simp only [turn, hs]
      split
      · exact turned_go h rfl
      · exact turned_fail h _ rfl
  | commentEnd1 =>
      simp only [turn, hs]
      split
      · exact turned_leave h .ok
      · exact turned_fail h _ rfl
  | error =>
      simp only [turn, hs]
      split
      · exact turned_go h rfl
      · exact turned_go h rfl
  | errorEnd0 =>
      simp only [turn, hs]
      split
      · exact turned_go h rfl
      · exact turned_go h rfl
  | errorEnd1 =>
      simp only [turn, hs]
      split
      · exact turned_leave h .ssiError
      · exact turned_go h rfl

-- A byte that does not fit is stored beyond the end.
theorem turn_overruns (h : Sound c) (hfits : ¬ Fits c ch) : ¬ Safe (turn m c p ch).writes := by
  intro hsafe
  apply hfits
  refine ⟨fun hs hdash => ?_, fun hs => ?_⟩
  · obtain ⟨q, rest, hq, _⟩ := h.current (by rw [hs]; rfl)
    have hturn : (turn m c p ch).writes = [⟨q.key.length, paramLen⟩] := by
      subst hdash
      simp only [turn, hs]
      rw [Ctx.pushKey, hq]
      rfl
    rw [hturn, safe_single] at hsafe
    rw [Ctx.keyLen, hq]
    exact hsafe
  · obtain ⟨q, rest, hq, hroom, _⟩ := h.current (by rw [hs]; rfl)
    have hturn : (turn m c p ch).writes = [⟨q.value.length, q.room⟩] := by
      simp only [turn, hs]
      rw [Ctx.pushValue, hq]
    rw [hturn, safe_single, hroom] at hsafe
    rw [Ctx.currentLen, hq]
    exact hsafe

-- The bytes that the loop handles, each with the context before it.
def handled (m : Nat → Pool) : Bytes → Nat → Ctx → List (Ctx × UInt8)
  | [], _, _ => []
  | ch :: rest, p, c =>
      (c, ch) :: if (turn (m p) c p ch).rc = none then handled m rest (p + 1) (turn (m p) c p ch).ctx else []

theorem Sound.restored (h : Sound c) {state : State} {looked saved : Nat} {copyEnd copyStart : Option Nat} {pos : Nat}
    (hstate : c.state = state) :
    Sound { c with state, looked, saved, copyEnd, copyStart, pos } := by
  subst hstate
  exact ⟨h.command, h.kept, h.current, h.quoted⟩

-- The loop: it keeps inside of its buffers exactly when all bytes fit.
theorem parseLoop_safe (m : Nat → Pool) (entry : Ctx) (bs : Bytes) (p : Nat) (c : Ctx) (h : Sound c) :
    (Safe (parseLoop m entry bs p c).2.2.1 ↔ ∀ s ∈ handled m bs p c, Fits s.1 s.2) ∧
      (Safe (parseLoop m entry bs p c).2.2.1 → (parseLoop m entry bs p c).1 ≠ .error →
        Sound (parseLoop m entry bs p c).2.1) := by
  induction bs generalizing p c with
  | nil =>
      refine ⟨⟨fun _ s hs => absurd hs List.not_mem_nil, fun _ => safe_nil⟩, fun _ _ => ?_⟩
      exact h.restored rfl
  | cons ch bs ih =>
      have hgood := @turn_fits (m p) c p ch h
      have hbad := @turn_overruns (m p) c p ch h
      rw [parseLoop, handled, List.forall_mem_cons]
      generalize turn (m p) c p ch = t at hgood hbad
      obtain ⟨rc, ctx, writes, log⟩ := t
      by_cases hfits : Fits c ch
      · obtain ⟨hsafe, hsound⟩ := hgood hfits
        cases rc with
        | none =>
            obtain ⟨hiff, hkeep⟩ := ih (p + 1) ctx (hsound nofun)
            dsimp only
            rw [safe_append, if_pos rfl]
            exact ⟨⟨fun hs => ⟨hfits, hiff.mp hs.2⟩, fun hs => ⟨hsafe, hiff.mpr hs.2⟩⟩, fun hs => hkeep hs.2⟩
        | some rc =>
            have hend : ∀ s ∈ (if some rc = none then handled m bs (p + 1) ctx else []), Fits s.1 s.2 := by simp
            cases rc with
            | error => exact ⟨⟨fun _ => ⟨hfits, hend⟩, fun _ => hsafe⟩, fun _ hne => absurd rfl hne⟩
            | ok => exact ⟨⟨fun _ => ⟨hfits, hend⟩, fun _ => hsafe⟩, fun _ _ => hsound nofun⟩
            | again => exact ⟨⟨fun _ => ⟨hfits, hend⟩, fun _ => hsafe⟩, fun _ _ => hsound nofun⟩
            | ssiError => exact ⟨⟨fun _ => ⟨hfits, hend⟩, fun _ => hsafe⟩, fun _ _ => hsound nofun⟩
      · have hover : ¬ Safe writes := hbad hfits
        cases rc with
        | none =>
            dsimp only
            rw [safe_append]
            exact ⟨⟨fun hs => absurd hs.1 hover, fun hs => absurd hs.1 hfits⟩, fun hs => absurd hs.1 hover⟩
        | some rc =>
            cases rc <;>
              exact ⟨⟨fun hs => absurd hs hover, fun hs => absurd hs.1 hfits⟩, fun hs => absurd hs hover⟩

-- What ngx_http_ssi_body_filter hands to the next call: it may move on to another buffer and
-- set what is saved and copied, and it may use up the command of a directive that has ended.
def Handed (c c' : Ctx) : Prop :=
  c'.state = c.state ∧ c'.savedState = c.savedState ∧ c'.valueBuf = c.valueBuf ∧ c'.valueLen = c.valueLen ∧
    c'.command = c.command ∧ (c.state ≠ .start → c'.params = c.params)

theorem Handed.sound (hh : Handed c c') (h : Sound c) : Sound c' := by
  obtain ⟨hstate, hsaved, hbuf, hlen, hcommand, hparams⟩ := hh
  refine ⟨by rw [hcommand]; exact h.command, by rw [hbuf, hlen]; exact h.kept, fun hin => ?_, fun hq => ?_⟩
  · rw [hstate] at hin ⊢
    have hne : c.state ≠ .start := by
      intro hs
      rw [hs] at hin
      cases hin
    rw [hparams hne, hlen]
    exact h.current hin
  · rw [hsaved]
    exact h.quoted (hstate ▸ hq)

-- A run of the parser over a response: what it handled, where it is unless a call has failed, and
-- what it stored.
inductive Run (valueLen : Nat) : List (Ctx × UInt8) → Option Ctx → List Write → Prop
  | start : Run valueLen [] (some (initial valueLen)) []
  | call {steps : List (Ctx × UInt8)} {c c' : Ctx} {writes : List Write} (m : Nat → Pool) (buf : Bytes) :
      Run valueLen steps (some c) writes → Handed c c' →
      Run valueLen (steps ++ handled m (buf.drop c'.pos) c'.pos c')
        (if (parse m buf c').1 = .error then none else some (parse m buf c').2.1) (writes ++ (parse m buf c').2.2.1)

theorem run_within {valueLen : Nat} {steps : List (Ctx × UInt8)} {now : Option Ctx} {writes : List Write}
    (h : Run valueLen steps now writes) :
    (Safe writes ↔ ∀ s ∈ steps, Fits s.1 s.2) ∧ (Safe writes → ∀ c, now = some c → Sound c) := by
  induction h with
  | start =>
      refine ⟨⟨fun _ s hs => absurd hs List.not_mem_nil, fun _ => safe_nil⟩, fun _ c hc => ?_⟩
      cases hc
      exact sound_initial valueLen
  | @call steps c c' writes m buf _ hh ih =>
      obtain ⟨hiff, hsound⟩ := ih
      rw [safe_append, List.forall_mem_append]
      by_cases hsafe : Safe writes
      · have hc' := hh.sound (hsound hsafe c rfl)
        obtain ⟨hparse, hkeep⟩ := parseLoop_safe m c' (buf.drop c'.pos) c'.pos c' hc'
        refine ⟨⟨fun hs => ⟨hiff.mp hsafe, hparse.mp hs.2⟩, fun hs => ⟨hsafe, hparse.mpr hs.2⟩⟩, fun hs d hd => ?_⟩
        by_cases herr : (parse m buf c').1 = .error
        · rw [if_pos herr] at hd
          cases hd
        · rw [if_neg herr] at hd
          cases hd
          exact hkeep hs.2 herr
      · exact ⟨⟨fun hs => absurd hs.1 hsafe, fun hs => absurd (hiff.mpr hs.1) hsafe⟩, fun hs => absurd hs.1 hsafe⟩

theorem parse_bounds {valueLen : Nat} {steps : List (Ctx × UInt8)} {now : Option Ctx} {writes : List Write}
    (h : Run valueLen steps now writes) : Safe writes ↔ ∀ s ∈ steps, Fits s.1 s.2 :=
  (run_within h).1

def plenty : Nat → Pool := fun _ => ⟨true, true, true, true⟩

theorem handed_refl (c : Ctx) : Handed c c := ⟨rfl, rfl, rfl, rfl, rfl, fun _ => rfl⟩

-- A run of one call.
theorem run_single (valueLen : Nat) (buf : Bytes) :
    Run valueLen ([] ++ handled plenty (buf.drop 0) 0 (initial valueLen))
      (if (parse plenty buf (initial valueLen)).1 = .error then none else some (parse plenty buf (initial valueLen)).2.1)
      ([] ++ (parse plenty buf (initial valueLen)).2.2.1) :=
  .call plenty buf .start (handed_refl _)

theorem parse_bounds_directive :
    Safe ([] ++ (parse plenty (ngxString "<!--#echo var=\"a\" -->") (initial 256)).2.2.1) ↔
      ∀ s ∈ [] ++ handled plenty ((ngxString "<!--#echo var=\"a\" -->").drop 0) 0 (initial 256), Fits s.1 s.2 :=
  parse_bounds (run_single 256 (ngxString "<!--#echo var=\"a\" -->"))

-- A name of 32 bytes with a '-' behind it.
def longName : Bytes := ngxString "<!--#echo abcdefghijklmnopqrstuvwxyz012345-"

theorem long_name_overruns : ¬ ∀ valueLen steps now writes, 1 ≤ valueLen → Run valueLen steps now writes → Safe writes := by
  intro h
  have hsafe := h 256 _ _ _ (by decide) (run_single 256 longName)
  have hmem : (⟨32, 32⟩ : Write) ∈ [] ++ (parse plenty longName (initial 256)).2.2.1 := by decide
  exact absurd (hsafe _ hmem) (Nat.lt_irrefl 32)

end Nginx.Http.Ssi
