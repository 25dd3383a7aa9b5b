import Muduo.TcpServer

/-!
# The registry of connections

`connections_` is a map from names, so that it is a record of the connections only because no two of
them have the same name: the suffix of a name fits into its buffer, whatever the address, and ends in
the decimals of a counter. Over any run of `newConnection` and `removeConnectionInLoop`, in which the
counter stays an `int`, `connections_` maps the names of the connections created and not removed to
these connections (`registry`).
-/

namespace Muduo.TcpServer

open Run

variable {ℓ : Type}

/-! ## Names -/

/-- The part of a connection's name that the server's name does not give. -/
def suffix (ipPort : List Char) (id : ℕ) : List Char := '-' :: ipPort ++ '#' :: formatUnsigned id

theorem suffix_inj {ipPort : List Char} {i j : ℕ} : suffix ipPort i = suffix ipPort j ↔ i = j := by
  rw [suffix, suffix, List.append_cancel_left_eq, List.cons.injEq, and_iff_right rfl,
    formatUnsigned_inj]

/-- The text of an address, as `toIpPort` returns it. -/
def Printed (ipPort : List Char) : Prop := ipPort.length ≤ 21 ∧ nul ∉ ipPort

/-- The suffix fits into the buffer. -/
theorem connName_eq {s : TcpServer ℓ} (hipPort : Printed s.ipPort_) {id : ℕ}
    (hid : s.nextConnId_ = id) (hle : id ≤ INT_MAX) :
    s.connName = s.name_ ++ suffix s.ipPort_ id := by
  obtain ⟨hlength, hclean⟩ := hipPort
  have hdigits : (formatUnsigned id).length ≤ 10 :=
    length_formatUnsigned_le (by decide) (Nat.lt_of_le_of_lt hle (by decide))
  have hfits : (suffix s.ipPort_ id).length < 64 := by
    simp only [suffix, List.length_append, List.length_cons]
    omega
  have hsuffix : nul ∉ suffix s.ipPort_ id := by
    have hnot : nul ∉ formatUnsigned id := fun h =>
      absurd (isDigit_of_mem_formatUnsigned h) (by decide)
    have hmarks : nul ≠ '-' ∧ nul ≠ '#' := by decide
    simp [suffix, hclean, hnot, hmarks]
  rw [connName, hid, formatInt_natCast, cStr_of_clean hclean]
  exact congrArg (s.name_ ++ ·) ((congrArg cStr (snprintf_of_fits hfits)).trans
    (cStr_of_clean hsuffix))

/-! ## Runs -/

/-- A call of the server on its loop. -/
inductive Action
  | newConnection (sockFd : ℤ) (localAddr peerAddr : InetAddress)
  | removeConnectionInLoop (conn : ℕ)

/-- A call of the server. -/
def step (s : TcpServer ℓ) : Action → Except Fault (TcpServer ℓ)
  | .newConnection sockFd localAddr peerAddr => s.newConnection sockFd localAddr peerAddr
  | .removeConnectionInLoop conn => .ok (s.removeConnectionInLoop conn)

/-- The action creates a connection. -/
def Action.Creates : Action → Prop
  | newConnection _ _ _ => True
  | removeConnectionInLoop _ => False

instance (a : Action) : Decidable a.Creates :=
  match a with
  | .newConnection _ _ _ => .isTrue trivial
  | .removeConnectionInLoop _ => .isFalse id

/-- The number of calls of `newConnection`. -/
def creations (actions : List Action) : ℕ := actions.countP (·.Creates)

/-- The connection that a step removes; a connection is removed after it has been created. -/
def removed (s : TcpServer ℓ) : Action → List ℕ
  | .newConnection _ _ _ => []
  | .removeConnectionInLoop conn => if conn < s.created.length then [conn] else []

/-- The step changes the entry of its own connection and no other: a new connection is entered under
its name, which has been free, and a removed one takes its own entry with it. -/
def Precise (s : TcpServer ℓ) (a : Action) : Prop := ∀ t, step s a = .ok t →
  match a with
  | .newConnection sockFd localAddr peerAddr =>
    ∃ ioLoop name, t.created = s.created ++ [⟨ioLoop, name, sockFd, localAddr, peerAddr⟩] ∧
      s.connections_ name = none ∧ ∀ name' conn, t.connections_ name' = some conn ↔
        s.connections_ name' = some conn ∨ name' = name ∧ conn = s.created.length
  | .removeConnectionInLoop conn =>
    t.created = s.created ∧
      ∀ name conn', t.connections_ name = some conn' ↔ s.connections_ name = some conn' ∧ conn' ≠ conn

/-- The name is that of a connection that has been created. -/
def Names (s : TcpServer ℓ) (name : List Char) (conn : ℕ) : Prop :=
  ∃ c, s.created[conn]? = some c ∧ c.name_ = name

/-- The invariant: `gone` are the connections that have been removed. -/
structure Registered (s : TcpServer ℓ) (gone : List ℕ) : Prop where
  pool : s.threadPool_.Sound
  printed : Printed s.ipPort_
  counter : s.nextConnId_ = (s.created.length + 1 : ℕ)
  names : ∀ name conn, s.Names name conn → name = s.name_ ++ suffix s.ipPort_ (conn + 1)
  created : ∀ conn ∈ gone, conn < s.created.length
  entries : ∀ name conn, s.connections_ name = some conn ↔ s.Names name conn ∧ conn ∉ gone

variable {s t : TcpServer ℓ} {gone : List ℕ}

theorem Names.lt {name : List Char} {conn : ℕ} (h : s.Names name conn) :
    conn < s.created.length := by
  obtain ⟨c, hc, -⟩ := h
  exact (List.getElem?_eq_some_iff.1 hc).1

/-- No two connections have the same name. -/
theorem Registered.unique (hs : s.Registered gone) {name : List Char} {i j : ℕ}
    (hi : s.Names name i) (hj : s.Names name j) : i = j := by
  have hsuffix := (hs.names name i hi).symm.trans (hs.names name j hj)
  have hid := suffix_inj.1 (List.append_cancel_left hsuffix)
  omega

theorem Registered.nodup (hs : s.Registered gone) : (s.created.map (·.name_)).Nodup := by
  rw [List.nodup_iff_injective_get]
  intro i j hij
  have hnames (k : Fin (s.created.map (·.name_)).length) :
      s.Names ((s.created.map (·.name_)).get k) k := by
    have hk : k < s.created.length := by simpa using k.isLt
    exact ⟨s.created[k], List.getElem?_eq_getElem hk, by simp⟩
  exact Fin.ext (hs.unique (hnames i) (hij ▸ hnames j))

/-- The name that is made up next is new. -/
theorem Registered.connName_fresh (hs : s.Registered gone) (hle : s.created.length + 1 ≤ INT_MAX)
    (conn : ℕ) : ¬s.Names s.connName conn := by
  intro h
  have hlt := h.lt
  have hsuffix := hs.names _ _ h
  rw [connName_eq hs.printed hs.counter hle, List.append_cancel_left_eq, suffix_inj] at hsuffix
  omega

theorem names_concat (c : Created ℓ) (name : List Char) (conn : ℕ) :
    ({ s with created := s.created ++ [c] } : TcpServer ℓ).Names name conn ↔
      s.Names name conn ∨ conn = s.created.length ∧ name = c.name_ := by
  simp only [Names, List.getElem?_append, List.getElem?_singleton]
  split
  next hlt =>
    have hne : conn ≠ s.created.length := Nat.ne_of_lt hlt
    simp [hne]
  next hle =>
    have hnone : s.created[conn]? = none := List.getElem?_eq_none (by omega)
    by_cases heq : conn = s.created.length
    · simp [heq, eq_comm]
    · have hsub : conn - s.created.length ≠ 0 := by omega
      simp [hnone, heq, hsub]

/-- **`newConnection`** registers its connection under a name of its own. -/
theorem Registered.newConnection (hs : s.Registered gone) (hlt : s.created.length + 1 < INT_MAX)
    (sockFd : ℤ) (localAddr peerAddr : InetAddress) :
    ∃ t, s.newConnection sockFd localAddr peerAddr = .ok t ∧ t.Registered gone ∧
      ∃ ioLoop, t.created = s.created ++ [⟨ioLoop, s.connName, sockFd, localAddr, peerAddr⟩] ∧
        s.connections_ s.connName = none ∧
        t.connections_ = Function.update s.connections_ s.connName (some s.created.length) := by
  obtain ⟨ioLoop, pool, hloop, hpool⟩ := hs.pool.getNextLoop
  have hincrement : increment s.nextConnId_ = .ok (s.nextConnId_ + 1) :=
    if_pos (by rw [hs.counter]; omega)
  have hfresh := hs.connName_fresh (Nat.le_of_lt hlt)
  have hnone : s.connections_ s.connName = none := by
    cases h : s.connections_ s.connName with
    | none => rfl
    | some conn => exact absurd ((hs.entries _ _).1 h).1 (hfresh conn)
  refine ⟨_, bind_eq_ok.2 ⟨_, hloop, bind_eq_ok.2 ⟨_, hincrement, rfl⟩⟩, ⟨hpool, hs.printed, ?_, ?_,
    ?_, ?_⟩, ioLoop, rfl, hnone, rfl⟩
  · rw [List.length_append, List.length_singleton, Int.natCast_succ, ← hs.counter]
  · intro name conn h
    rcases (names_concat _ name conn).1 h with h | ⟨rfl, rfl⟩
    · exact hs.names name conn h
    · exact connName_eq hs.printed hs.counter (Nat.le_of_lt hlt)
  · intro conn hconn
    have hlt := hs.created conn hconn
    simp only [List.length_append]
    omega
  · intro name conn
    refine Iff.trans ?_ (and_congr_left' (names_concat _ name conn)).symm
    by_cases hname : name = s.connName
    · subst hname
      have hgone : s.created.length ∉ gone := fun h => Nat.lt_irrefl _ (hs.created _ h)
      simp only [Function.update_self, Option.some.injEq, hfresh, false_or, and_true]
      exact ⟨fun h => h ▸ ⟨rfl, hgone⟩, fun h => h.1.symm⟩
    · simp [hs.entries, hname]

/-- An entry under a name that has been free. -/
theorem update_entry_iff {name : List Char} (hnone : s.connections_ name = none) (i : ℕ)
    (name' : List Char) (conn : ℕ) :
    Function.update s.connections_ name (some i) name' = some conn ↔
      s.connections_ name' = some conn ∨ name' = name ∧ conn = i := by
  by_cases hname : name' = name
  · subst hname
    simp [hnone, eq_comm]
  · simp [hname]

/-- **`removeConnectionInLoop`** takes the entry of its connection out, and no other. -/
theorem Registered.removeConnectionInLoop (hs : s.Registered gone) (conn : ℕ) :
    (s.removeConnectionInLoop conn).Registered
        (gone ++ removed s (.removeConnectionInLoop conn)) ∧
      ∀ name conn', (s.removeConnectionInLoop conn).connections_ name = some conn' ↔
        s.connections_ name = some conn' ∧ conn' ≠ conn := by
  unfold TcpServer.removeConnectionInLoop
  split
  next c hc =>
    have hlt := (List.getElem?_eq_some_iff.1 hc).1
    have hremoved : removed s (.removeConnectionInLoop conn) = [conn] := if_pos hlt
    have hentries : ∀ name conn', Function.update s.connections_ c.name_ none name = some conn' ↔
        s.connections_ name = some conn' ∧ conn' ≠ conn := by
      intro name conn'
      by_cases hname : name = c.name_
      · subst hname
        rw [Function.update_self]
        refine iff_of_false (by simp) fun h => h.2 ?_
        exact hs.unique ((hs.entries _ _).1 h.1).1 ⟨c, hc, rfl⟩
      · rw [Function.update_of_ne hname]
        refine (and_iff_left_of_imp fun h => ?_).symm
        rintro rfl
        obtain ⟨c', hc', hname'⟩ := ((hs.entries _ _).1 h).1
        rw [hc] at hc'
        exact hname (hname' ▸ Option.some.inj hc' ▸ rfl)
    refine ⟨⟨hs.pool, hs.printed, hs.counter, hs.names, ?_, fun name conn' => ?_⟩, hentries⟩
    · rw [hremoved]
      simpa [or_imp, forall_and, hlt] using hs.created
    · rw [hremoved, List.mem_append, List.mem_singleton, not_or, ← and_assoc]
      exact (hentries name conn').trans (and_congr_left' (hs.entries name conn'))
  next hnone =>
    have hle := List.getElem?_eq_none_iff.1 hnone
    have hremoved : removed s (.removeConnectionInLoop conn) = [] := if_neg (by omega)
    rw [hremoved, List.append_nil]
    refine ⟨hs, fun name conn' => (and_iff_left_of_imp fun h => ?_).symm⟩
    have hlt := ((hs.entries name conn').1 h).1.lt
    omega

/-- **A step** keeps the registry, as long as the counter is an `int`. -/
theorem Registered.step (hs : s.Registered gone) {a : Action}
    (hlt : s.created.length + creations [a] < INT_MAX) :
    ∃ t, TcpServer.step s a = .ok t ∧ t.Registered (gone ++ removed s a) ∧
      t.created.length = s.created.length + creations [a] ∧ Precise s a := by
  cases a with
  | newConnection sockFd localAddr peerAddr =>
    obtain ⟨t, ht, hregistered, ioLoop, hcreated, hnone, hentries⟩ :=
      hs.newConnection hlt sockFd localAddr peerAddr
    have hprecise : Precise s (.newConnection sockFd localAddr peerAddr) := by
      intro u hu
      obtain rfl := Except.ok.inj (ht.symm.trans hu)
      exact ⟨ioLoop, s.connName, hcreated, hnone, hentries ▸ update_entry_iff hnone _⟩
    have hlength : t.created.length = s.created.length + 1 := by
      rw [hcreated, List.length_append, List.length_singleton]
    exact ⟨t, ht, (List.append_nil gone).symm ▸ hregistered, hlength, hprecise⟩
  | removeConnectionInLoop conn =>
    obtain ⟨hregistered, hprecise⟩ := hs.removeConnectionInLoop conn
    have hcreated : (s.removeConnectionInLoop conn).created = s.created := by
      unfold TcpServer.removeConnectionInLoop
      split <;> rfl
    refine ⟨_, rfl, hregistered, congrArg List.length hcreated, fun u hu => ?_⟩
    obtain rfl := Except.ok.inj hu
    exact ⟨hcreated, hprecise⟩

theorem creations_cons (a : Action) (actions : List Action) :
    creations (a :: actions) = creations [a] + creations actions := by
  rw [creations, creations, creations, ← List.countP_append]
  rfl

/-- **A run** keeps the registry. -/
theorem Registered.run (hs : s.Registered gone) {actions : List Action}
    (hlt : s.created.length + creations actions < INT_MAX) :
    ∃ t, Run.run TcpServer.step s actions = .ok t ∧
      t.Registered (gone ++ collect TcpServer.step removed s actions) ∧
      t.created.length = s.created.length + creations actions ∧
      Along TcpServer.step Precise s actions := by
  induction actions generalizing s gone with
  | nil => exact ⟨s, rfl, by simpa [collect] using hs, rfl, trivial⟩
  | cons a actions ih =>
    rw [creations_cons] at hlt
    obtain ⟨t, ht, hregistered, hlength, hprecise⟩ := hs.step (a := a) (by omega)
    obtain ⟨u, hu, hregistered', hlength', halong⟩ := ih hregistered (by omega)
    refine ⟨u, run_cons_ok.2 ⟨t, ht, hu⟩, ?_, ?_, hprecise, fun t' ht' => ?_⟩
    · rw [collect, ht, ← List.append_assoc]
      exact hregistered'
    · rw [creations_cons]
      omega
    · obtain rfl := Except.ok.inj (ht.symm.trans ht')
      exact halong

/-- A server that has created no connection. -/
theorem registered_construct (loop : ℓ) (loops : List ℓ) (listenAddr : InetAddress)
    (nameArg : List Char) : ∃ s, construct loop listenAddr nameArg = .ok s ∧
      (s.start loops).Registered [] ∧ (s.start loops).created = [] := by
  obtain ⟨text, htext, hlength, hclean⟩ := listenAddr.toIpPort_spec
  refine ⟨_, bind_eq_ok.2 ⟨text, htext, rfl⟩, ⟨?_, ⟨hlength, hclean⟩, rfl, ?_, by simp, ?_⟩, rfl⟩
  · exact EventLoopThreadPool.start_sound loop loops
  · rintro name conn ⟨c, hc, -⟩
    cases hc
  · intro name conn
    refine iff_of_false (Option.some_ne_none conn ∘ Eq.symm) fun h => ?_
    obtain ⟨⟨c, hc, -⟩, -⟩ := h
    cases hc

/-- **The registry**: a server may create and remove connections in any order, as long as it creates
fewer than `INT_MAX`. Each `newConnection` creates one connection; no suffix of a name is truncated and
no two connections have the same name; every step changes the entry of its own connection only, and
`connections_` maps exactly the names of the connections created and not removed to these
connections. -/
theorem registry (loop : ℓ) (loops : List ℓ) (listenAddr : InetAddress) (nameArg : List Char)
    (actions : List Action) (hcreations : creations actions < INT_MAX) :
    ∃ s t, construct loop listenAddr nameArg = .ok s ∧
      Run.run TcpServer.step (s.start loops) actions = .ok t ∧
      t.created.length = creations actions ∧
      (∀ name conn, t.Names name conn → name = t.name_ ++ suffix t.ipPort_ (conn + 1)) ∧
      (t.created.map (·.name_)).Nodup ∧
      Along TcpServer.step Precise (s.start loops) actions ∧
      ∀ name conn, t.connections_ name = some conn ↔
        t.Names name conn ∧ conn ∉ collect TcpServer.step removed (s.start loops) actions := by
  obtain ⟨s, hs, hregistered, hnone⟩ := registered_construct loop loops listenAddr nameArg
  have hlt : (s.start loops).created.length + creations actions < INT_MAX := by
    rwa [hnone, List.length_nil, Nat.zero_add]
  obtain ⟨t, ht, hregistered', hlength, halong⟩ := hregistered.run hlt
  rw [hnone, List.length_nil, Nat.zero_add] at hlength
  exact ⟨s, t, hs, ht, hlength, hregistered'.names, hregistered'.nodup, halong, hregistered'.entries⟩

/-- Two connections are created on one loop, and the first is removed. -/
def two : List Action :=
  [.newConnection 7 ⟨(127, 0, 0, 1), 16415⟩ ⟨(10, 0, 0, 2), 1⟩,
    .newConnection 8 ⟨(127, 0, 0, 1), 16415⟩ ⟨(10, 0, 0, 2), 2⟩, .removeConnectionInLoop 0]

theorem registry_two : ∃ s t : TcpServer Unit,
    construct () ⟨(127, 0, 0, 1), 16415⟩ ['s'] = .ok s ∧
    Run.run TcpServer.step (s.start []) two = .ok t ∧
    (t.connections_ ['s', '-', '1', '2', '7', '.', '0', '.', '0', '.', '1', ':', '8', '0', '0', '0',
        '#', '1'] = none ∧
      t.connections_ ['s', '-', '1', '2', '7', '.', '0', '.', '0', '.', '1', ':', '8', '0', '0', '0',
        '#', '2'] = some 1) ∧
    t.created.length = creations two ∧ (t.created.map (·.name_)).Nodup ∧
    Along TcpServer.step Precise (s.start []) two ∧
    ∀ name conn, t.connections_ name = some conn ↔
      t.Names name conn ∧ conn ∉ collect TcpServer.step removed (s.start []) two := by
  have hview : (construct () ⟨(127, 0, 0, 1), 16415⟩ ['s'] >>= fun s =>
      Run.run TcpServer.step (s.start []) two).map (fun t =>
        (t.connections_ ['s', '-', '1', '2', '7', '.', '0', '.', '0', '.', '1', ':', '8', '0', '0',
            '0', '#', '1'],
          t.connections_ ['s', '-', '1', '2', '7', '.', '0', '.', '0', '.', '1', ':', '8', '0', '0',
            '0', '#', '2'])) = .ok (none, some 1) := by
    decide +kernel
  obtain ⟨s, t, hs, ht, hlength, -, hnodup, halong, hentries⟩ :=
    registry () [] ⟨(127, 0, 0, 1), 16415⟩ ['s'] two (by decide)
  rw [hs, ok_bind, ht] at hview
  have hview := Prod.mk.inj (Except.ok.inj hview)
  exact ⟨s, t, hs, ht, hview, hlength, hnodup, halong, hentries⟩

end Muduo.TcpServer
