import Nginx.Core.Queue

namespace Nginx.Listening

-- ngx_http_conf_addr_t. The sockaddr tells the addresses of a port apart; conf is what
-- ngx_http_add_addrs copies: the default server, the ssl flag and the virtual names.
structure ConfAddr (C : Type) where
  sockaddr : ℕ
  wildcard : Bool
  bind : Bool
  conf : C
  deriving DecidableEq

structure InAddr (C : Type) where
  sockaddr : ℕ
  conf : C
  deriving DecidableEq

-- A socket of ngx_http_add_listening with the addresses of its ngx_http_port_t.
structure Socket (C : Type) where
  addr : ConfAddr C
  addrs : List (InAddr C)
  deriving DecidableEq

variable {C : Type}

-- The addresses of one port: ngx_http_add_addresses merges those which are the same.
structure Port (C : Type) where
  addrs : List (ConfAddr C)
  nonempty : addrs ≠ []
  distinct : (addrs.map (·.sockaddr)).Nodup
  single : addrs.countP (·.wildcard) ≤ 1

def cmpConfAddrs (first second : ConfAddr C) : ℤ :=
  -- a wildcard address must be the last resort, shift it to the end
  if first.wildcard then 1
  -- shift explicit bind()ed addresses to the start
  else if first.bind && !second.bind then -1
  else if !first.bind && second.bind then 1
  else 0

-- ngx_sort, which makes the scan of ngx_queue_sort on an array. Without memory for one element it
-- leaves the array as it is.
def sort {α : Type} (alloc : Bool) (cmp : α → α → ℤ) (base : List α) : List α :=
  if alloc then Queue.sort cmp base else base

def inAddr (a : ConfAddr C) : InAddr C := ⟨a.sockaddr, a.conf⟩

-- ngx_http_add_addrs
def addAddrs (naddrs : ℕ) (addr : List (ConfAddr C)) : List (InAddr C) := (addr.take naddrs).map inAddr

-- The loop of ngx_http_init_listening; last is the length of what addr points to.
def listen (bindWildcard : Bool) (addr : List (ConfAddr C)) (i : ℕ) : List (Socket C) :=
  if h : i < addr.length then
    if bindWildcard && !addr[i].bind then listen bindWildcard addr (i + 1)
    else
      let naddrs := if i = addr.length - 1 then addr.length else 1
      let next := if i = addr.length - 1 then i else 0
      ⟨addr[i], addAddrs naddrs addr⟩ :: listen bindWildcard addr.tail next
  else []
  termination_by (addr.length, addr.length - i)
  decreasing_by
    · exact Prod.Lex.right _ (by omega)
    · refine Prod.Lex.left _ _ ?_
      rw [List.length_tail]
      omega

-- ngx_http_init_listening. A port without an address would be read before its first one.
def initListening (addr : List (ConfAddr C)) : Option (List (Socket C)) :=
  match addr.getLast? with
  | none => none
  | some last =>
      if last.wildcard then some (listen true (addr.dropLast ++ [{ last with bind := true }]) 0)
      else some (listen false addr 0)

-- What ngx_http_optimize_servers does with one port.
def optimizeServers (alloc : Bool) (addrs : List (ConfAddr C)) : Option (List (Socket C)) :=
  initListening (sort alloc cmpConfAddrs addrs)

def HasWildcard (addrs : List (ConfAddr C)) : Prop := ∃ a ∈ addrs, a.wildcard = true

instance (addrs : List (ConfAddr C)) : Decidable (HasWildcard addrs) :=
  inferInstanceAs (Decidable (∃ a ∈ addrs, a.wildcard = true))

-- The addresses that get a socket of their own.
def needed (addrs : List (ConfAddr C)) : List (ConfAddr C) :=
  if HasWildcard addrs then addrs.filter fun a => a.bind || a.wildcard else addrs

-- The sockets a port is meant to get.
structure Exact (addrs : List (ConfAddr C)) (sockets : List (Socket C)) : Prop where
  listening : (sockets.map (·.addr.sockaddr)).Perm ((needed addrs).map (·.sockaddr))
  attached : (sockets.flatMap (·.addrs)).Perm (addrs.map inAddr)
  home : ∀ a ∈ addrs, ∃ s ∈ sockets, inAddr a ∈ s.addrs ∧
    if HasWildcard addrs ∧ a.bind = false then s.addr.wildcard = true
    else s.addr.sockaddr = a.sockaddr

-- Lists from which the loop makes these sockets.
def Ready (addrs : List (ConfAddr C)) : Prop :=
  (∀ a ∈ addrs, a.wildcard = false) ∨ (∀ a ∈ addrs, a.bind = true ∨ a.wildcard = true) ∨
    ∃ bs us w, addrs = bs ++ us ++ [w] ∧ w.wildcard = true ∧ (∀ b ∈ bs, b.bind = true) ∧
      ∀ u ∈ us, u.bind = false

section Loop

variable {us rest : List (ConfAddr C)} {a b x : ConfAddr C}

theorem listen_each (addr : List (ConfAddr C)) :
    listen false addr 0 = addr.map fun a => ⟨a, [inAddr a]⟩ := by
  induction addr with
  | nil => simp [listen]
  | cons a addr ih =>
      rw [listen]
      cases addr with
      | nil => simp [addAddrs, listen]
      | cons b addr =>
          have hne : ¬0 = addr.length + 1 := by omega
          simpa [addAddrs] using ih

-- From an index inside of the addresses without bind the loop comes to the next bound one.
theorem listen_skip (us rest : List (ConfAddr C)) (x : ConfAddr C) (i : ℕ) (hi : i ≤ us.length)
    (hus : ∀ u ∈ us, u.bind = false) (hx : x.bind = true) :
    listen true (us ++ x :: rest) i =
      ⟨x, addAddrs (if rest = [] then us.length + 1 else 1) (us ++ x :: rest)⟩ ::
        listen true (us ++ x :: rest).tail (if rest = [] then us.length else 0) := by
  rw [listen]
  have hlt : i < (us ++ x :: rest).length := by
    rw [List.length_append, List.length_cons]
    omega
  rw [dif_pos hlt]
  by_cases hlast : i = us.length
  · subst hlast
    have hget : (us ++ x :: rest)[us.length] = x := by simp
    have hend : (us.length = (us ++ x :: rest).length - 1) ↔ rest = [] := by
      rw [List.length_append, List.length_cons, ← List.length_eq_zero_iff]
      omega
    simp only [hget, hx, Bool.not_true, Bool.and_false, Bool.false_eq_true, if_false, hend]
    by_cases hrest : rest = []
    · simp [hrest]
    · simp [hrest]
  · have hbefore : i < us.length := by omega
    have hget : (us ++ x :: rest)[i] = us[i] := List.getElem_append_left hbefore
    have hbind : us[i].bind = false := hus _ (List.getElem_mem hbefore)
    simp only [hget, hbind, Bool.not_false, Bool.and_true, if_true]
    exact listen_skip us rest x (i + 1) hbefore hus hx
  termination_by us.length - i

theorem listen_bound (hb : b.bind = true) (hrest : rest ≠ []) :
    listen true (b :: rest) 0 = ⟨b, [inAddr b]⟩ :: listen true rest 0 := by
  have hskip := listen_skip [] rest b 0 (Nat.le_refl _) (by simp) hb
  simpa [hrest, addAddrs] using hskip

theorem listen_bounds (bs : List (ConfAddr C)) (hbs : ∀ b ∈ bs, b.bind = true) (hrest : rest ≠ []) :
    listen true (bs ++ rest) 0 = (bs.map fun b => ⟨b, [inAddr b]⟩) ++ listen true rest 0 := by
  induction bs with
  | nil => rfl
  | cons b bs ih =>
      rw [List.cons_append, listen_bound (hbs b (by simp)) (by simp [hrest]), List.map_cons, List.cons_append,
        ih fun b' hb' => hbs b' (List.mem_cons_of_mem _ hb')]

theorem listen_wildcard (us : List (ConfAddr C)) (w : ConfAddr C) (hus : ∀ u ∈ us, u.bind = false)
    (hw : w.bind = true) : listen true (us ++ [w]) 0 = [⟨w, us.map inAddr ++ [inAddr w]⟩] := by
  have hskip := listen_skip us [] w 0 (Nat.zero_le _) hus hw
  have hend : listen true (us ++ [w]).tail us.length = [] := by
    rw [listen, dif_neg (by simp)]
  have hall : (us ++ [w]).take (us.length + 1) = us ++ [w] := List.take_of_length_le (by simp)
  rw [hskip, if_pos rfl, if_pos rfl, hend, addAddrs, hall, List.map_append, List.map_singleton]

end Loop

end Nginx.Listening
