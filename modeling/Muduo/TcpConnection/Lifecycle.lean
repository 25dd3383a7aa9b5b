import Muduo.TcpConnection.Steps

/-!
# The life of a connection

A `Life` is a connection with what its server does about it: the entry of `connections_`, and the
functors `removeConnectionInLoop` and `conneectDestroyed` that wait in the queues. There are two
ways to `conneectDestroyed`: a close makes the server remove the connection, or the server goes
away first. Only `conneectDestroyed` of a connection that is `kDisconnecting` does not leave it
disconnected, and that is when a life ends badly (`endsWell_iff`). A `shutdown()` is one step here, on
whichever thread; that its test and its store can be parted is the subject of
`Muduo.TcpConnection.Threads`.
-/

namespace Muduo

open Run

variable {ι : Type}

/-- A connection and what its server knows of it. -/
structure Life (ι : Type) where
  world : World ι
  /-- The `TcpServer` has not been destroyed. -/
  server : Bool
  /-- `connections_` of the server holds the connection. -/
  connections_ : Bool
  /-- The calls of `removeConnectionInLoop` that wait. -/
  removals : ℕ
  /-- The calls of `conneectDestroyed` that wait. -/
  destroys : ℕ
  /-- `conneectDestroyed` has run. -/
  torn : Bool

namespace Life

/-- A step in the life of a connection. -/
inductive Action
  | op (op : TcpConnection.Op)
  | removeConnectionInLoop
  | destroyServer
  | conneectDestroyed

/-- A step on the connection. A close calls `TcpServer::removeConnection`, through a pointer to the
server. -/
def exec (s : Life ι) (op : TcpConnection.Op) : Except Fault (Life ι) := do
  let w ← op.exec s.world
  if .closeCallback ∈ w.trace.drop s.world.trace.length then
    if s.server then return { s with world := w, removals := s.removals + 1 }
    else .error .outOfBounds
  else return { s with world := w }

/-- `TcpServer::removeConnectionInLoop`. -/
def removeConnectionInLoop (s : Life ι) : Except Fault (Life ι) :=
  if s.server then
    .ok { s with removals := s.removals - 1, connections_ := false, destroys := s.destroys + 1 }
  else .error .outOfBounds

/-- `TcpServer::~TcpServer`, for this connection. -/
def destroyServer (s : Life ι) : Life ι :=
  { s with
    server := false
    connections_ := false
    destroys := if s.connections_ then s.destroys + 1 else s.destroys }

/-- A queued `conneectDestroyed` runs. -/
def conneectDestroyed (s : Life ι) : Except Fault (Life ι) := do
  let w ← TcpConnection.conneectDestroyed s.world
  return { s with world := w, destroys := s.destroys - 1, torn := true }

/-- A step. A functor that is not there is not run, and a server is destroyed once. -/
def step (s : Life ι) : Action → Except Fault (Life ι)
  | .op op => s.exec op
  | .removeConnectionInLoop => if s.removals = 0 then .ok s else s.removeConnectionInLoop
  | .destroyServer => if s.server then .ok s.destroyServer else .ok s
  | .conneectDestroyed => if s.destroys = 0 then .ok s else s.conneectDestroyed

/-- An established connection in the map of its server. -/
def start (w : World ι) : Life ι := ⟨w, true, true, 0, 0, false⟩

/-- The states that the calls of `connectionCallback_` saw. -/
def callbacks (trace : List Effect) : List StateE :=
  trace.filterMap fun
    | .connectionCallback state => some state
    | _ => none

/-- `connectionCallback_` has been called twice, first with `connected()` and then with
`disconnected()`, and the assertion of the destructor holds. -/
def EndsWell (s : Life ι) : Prop :=
  callbacks s.world.trace = [.kConnected, .kDisconnected] ∧
    TcpConnection.destruct s.world = .ok ()

/-- The step runs `conneectDestroyed` on a connection that is `kDisconnecting`. -/
def TearsHalfClosed (s : Life ι) : Action → Prop
  | .conneectDestroyed => s.destroys ≠ 0 ∧ s.world.conn.state_ = .kDisconnecting
  | _ => False

/-! ## Callbacks -/

theorem callbacks_append (t u : List Effect) : callbacks (t ++ u) = callbacks t ++ callbacks u :=
  List.filterMap_append

theorem callbacks_of_extends {l l' : Link ι} (h : l.Extends l') :
    callbacks l'.trace = callbacks l.trace := by
  obtain ⟨news, htrace, hnews⟩ := h
  have hnone : callbacks news = [] := by
    refine List.filterMap_eq_nil_iff.2 fun e he => ?_
    cases e with
    | connectionCallback state => exact absurd rfl ((hnews _ he).2 state)
    | _ => rfl
  rw [htrace, callbacks_append, hnone, List.append_nil]

theorem callbacks_handleClose (l : Link ι) :
    callbacks l.handleClose.trace = callbacks l.trace ++ [.kDisconnected] := by
  simp [Link.handleClose, Link.disconnect, callbacks]

/-- A step that closes tells the server; no other step does. -/
theorem exec_ok {s t : Life ι} (hs : s.world.Sound) {op : TcpConnection.Op} (h : s.exec op = .ok t) :
    t.world.Sound ∧
      ((s.world.link.Extends t.world.link ∧ t = { s with world := t.world } ∧
          (t.world.conn.state_ = s.world.conn.state_ ∨
            s.world.conn.state_ = .kConnected ∧ t.world.conn.state_ = .kDisconnecting)) ∨
        (s.world.conn.state_ = .kConnected ∨ s.world.conn.state_ = .kDisconnecting) ∧
          s.server = true ∧ t.world.link = s.world.link.handleClose ∧
            t = { s with world := t.world, removals := s.removals + 1 }) := by
  obtain ⟨w, hw, h⟩ := bind_eq_ok.1 h
  have hsound := (TcpConnection.Op.exec_ok hs hw).sound
  cases TcpConnection.Op.exec_moves hs hw with
  | inside hextends hstate =>
    have hclose : .closeCallback ∉ w.trace.drop s.world.trace.length := by
      obtain ⟨news, htrace, hnews⟩ := hextends
      rw [show w.trace = s.world.trace ++ news from htrace, List.drop_left]
      exact fun hmem => (hnews _ hmem).1 rfl
    simp only [if_neg hclose] at h
    obtain rfl := Except.ok.inj h
    exact ⟨hsound, .inl ⟨hextends, rfl, hstate⟩⟩
  | closes hlive heq =>
    have hclose : .closeCallback ∈ w.trace.drop s.world.trace.length := by
      have htrace : w.trace = s.world.trace ++
          [.connectionCallback .kDisconnected, .closeCallback] := by
        rw [show w.trace = w.link.trace from rfl, heq]
        simp [Link.handleClose, Link.disconnect, World.link]
      rw [htrace, List.drop_left]
      simp
    simp only [if_pos hclose] at h
    split at h
    next hserver =>
      obtain rfl := Except.ok.inj h
      exact ⟨hsound, .inr ⟨hlive, hserver, heq, rfl⟩⟩
    next => cases h

/-! ## The invariant -/

/-- How far the server has got with a connection. -/
inductive Stage (s : Life ι) : Prop
  /-- The server knows the connection, and is told once it has closed. -/
  | listed (hserver : s.server = true) (hconnections : s.connections_ = true)
      (hdestroys : s.destroys = 0) (htorn : s.torn = false)
      (hremovals : s.removals = if s.world.conn.state_ = .kDisconnected then 1 else 0)
  /-- The server has removed the connection. -/
  | removed (hstate : s.world.conn.state_ = .kDisconnected) (hserver : s.server = true)
      (hconnections : s.connections_ = false) (hremovals : s.removals = 0)
      (hdestroys : s.destroys + s.torn.toNat = 1)
  /-- The server is gone. -/
  | abandoned (hserver : s.server = false) (hconnections : s.connections_ = false)
      (hdestroys : s.destroys + s.torn.toNat = 1)
      (htorn : s.torn = true → s.world.conn.state_ ≠ .kConnected)

/-- The invariant of a life. -/
structure Ok (s : Life ι) : Prop where
  sound : s.world.Sound
  callbacks_eq : (s.world.conn.state_ = .kConnected ∨ s.world.conn.state_ = .kDisconnecting) ∧
      callbacks s.world.trace = [.kConnected] ∨
    s.world.conn.state_ = .kDisconnected ∧
      callbacks s.world.trace = [.kConnected, .kDisconnected]
  stage : s.Stage

theorem start_ok {w : World ι} (hw : w.Established) : (start w).Ok := by
  obtain ⟨hsound, hinitial⟩ := hw.spec
  have hstate : w.conn.state_ = .kConnected := hinitial.state_eq
  have htrace : w.trace = [.connectionCallback .kConnected] := hinitial.trace_eq
  refine ⟨hsound, .inl ⟨.inl hstate, ?_⟩, .listed rfl rfl rfl rfl ?_⟩
  · simp only [start]
    rw [htrace]
    rfl
  · simp [start, hstate]

/-- A step on the connection keeps the invariant; once torn, it does not change the state. -/
theorem Ok.exec {s t : Life ι} (hs : s.Ok) {op : TcpConnection.Op} (h : s.exec op = .ok t) :
    t.Ok ∧ t.torn = s.torn ∧ (s.torn = true → t.world.conn.state_ = s.world.conn.state_) := by
  obtain ⟨hsound, ⟨hextends, ht, hstate⟩ | ⟨hlive, hserver, hlink, ht⟩⟩ := exec_ok hs.sound h
  · have hcallbacks : callbacks t.world.trace = callbacks s.world.trace :=
      callbacks_of_extends hextends
    have htorn : t.torn = s.torn := by rw [ht]
    have hdisconnected : t.world.conn.state_ = .kDisconnected ↔
        s.world.conn.state_ = .kDisconnected := by
      rcases hstate with heq | ⟨hconnected, hdisconnecting⟩
      · rw [heq]
      · simp [hconnected, hdisconnecting]
    refine ⟨⟨hsound, ?_, ?_⟩, htorn, ?_⟩
    · rw [hcallbacks]
      rcases hs.callbacks_eq with ⟨hl, hc⟩ | ⟨hd, hc⟩
      · rcases hstate with heq | ⟨-, hdisconnecting⟩
        · exact .inl ⟨by rw [heq]; exact hl, hc⟩
        · exact .inl ⟨.inr hdisconnecting, hc⟩
      · exact .inr ⟨hdisconnected.2 hd, hc⟩
    · cases hs.stage with
      | listed hserver hconnections hdestroys hnot hremovals =>
        refine .listed ?_ ?_ ?_ ?_ ?_
        · rw [ht, hserver]
        · rw [ht, hconnections]
        · rw [ht, hdestroys]
        · rw [htorn, hnot]
        · rw [ht, hremovals]
          simp only [hdisconnected]
      | removed hd hserver hconnections hremovals hdestroys =>
        refine .removed (hdisconnected.2 hd) ?_ ?_ ?_ ?_
        · rw [ht, hserver]
        · rw [ht, hconnections]
        · rw [ht, hremovals]
        · rw [ht, hdestroys]
      | abandoned hserver hconnections hdestroys hne =>
        refine .abandoned ?_ ?_ ?_ fun hst => ?_
        · rw [ht, hserver]
        · rw [ht, hconnections]
        · rw [ht, hdestroys]
        · rcases hstate with heq | ⟨-, hdisconnecting⟩
          · rw [heq]
            exact hne (htorn ▸ hst)
          · simp [hdisconnecting]
    · intro hst
      rcases hstate with heq | ⟨hconnected, -⟩
      · exact heq
      · cases hs.stage with
        | listed _ _ _ hnot => rw [hst] at hnot; cases hnot
        | removed hd => rw [hconnected] at hd; cases hd
        | abandoned _ _ _ hne => exact absurd hconnected (hne hst)
  · have hstate : t.world.conn.state_ = .kDisconnected := by
      rw [← World.link_state, hlink]
      rfl
    have hcallbacks : callbacks t.world.trace = callbacks s.world.trace ++ [.kDisconnected] := by
      have := callbacks_handleClose s.world.link
      rwa [← hlink] at this
    have hopen : s.world.conn.state_ ≠ .kDisconnected := by
      rcases hlive with h | h <;> simp [h]
    cases hs.stage with
    | listed _ hconnections hdestroys hnot hremovals =>
      have htorn : t.torn = s.torn := by rw [ht]
      refine ⟨⟨hsound, .inr ⟨hstate, ?_⟩, .listed ?_ ?_ ?_ ?_ ?_⟩, htorn, ?_⟩
      · rw [hcallbacks]
        rcases hs.callbacks_eq with ⟨-, hc⟩ | ⟨hd, -⟩
        · rw [hc]
          rfl
        · exact absurd hd hopen
      · rw [ht, hserver]
      · rw [ht, hconnections]
      · rw [ht, hdestroys]
      · rw [htorn, hnot]
      · rw [if_pos hstate, ht, hremovals, if_neg hopen]
      · intro hst
        rw [hnot] at hst
        cases hst
    | removed hd => exact absurd hd hopen
    | abandoned hgone =>
      rw [hserver] at hgone
      cases hgone

theorem Ok.removeConnectionInLoop {s t : Life ι} (hs : s.Ok) (hremovals : s.removals ≠ 0)
    (h : s.removeConnectionInLoop = .ok t) : t.Ok ∧ t.torn = s.torn ∧ t.world = s.world := by
  unfold Life.removeConnectionInLoop at h
  split at h
  next hserver =>
    obtain rfl := Except.ok.inj h
    refine ⟨⟨hs.sound, hs.callbacks_eq, ?_⟩, rfl, rfl⟩
    cases hs.stage with
    | listed _ hconnections hdestroys hnot hcount =>
      have hstate : s.world.conn.state_ = .kDisconnected := by
        by_contra hopen
        rw [if_neg hopen] at hcount
        exact hremovals hcount
      rw [if_pos hstate] at hcount
      refine .removed hstate hserver rfl ?_ ?_
      · simp only [hcount, Nat.sub_self]
      · simp [hdestroys, hnot]
    | removed _ _ _ hcount => exact absurd hcount hremovals
    | abandoned hgone =>
      rw [hserver] at hgone
      cases hgone
  next => cases h

theorem Ok.destroyServer {s : Life ι} (hs : s.Ok) (hserver : s.server = true) :
    s.destroyServer.Ok := by
  refine ⟨hs.sound, hs.callbacks_eq, ?_⟩
  cases hs.stage with
  | listed _ hconnections hdestroys hnot =>
    refine .abandoned rfl rfl ?_ ?_
    · simp [Life.destroyServer, hconnections, hdestroys, hnot]
    · intro hst
      exact absurd (hnot.symm.trans hst) Bool.noConfusion
  | removed hstate _ hconnections _ hdestroys =>
    refine .abandoned rfl rfl ?_ ?_
    · simpa [Life.destroyServer, hconnections] using hdestroys
    · intro _
      simp [Life.destroyServer, hstate]
  | abandoned hgone =>
    rw [hserver] at hgone
    cases hgone

/-- `conneectDestroyed` is run once, and closes what is still connected. -/
theorem Ok.conneectDestroyed {s t : Life ι} (hs : s.Ok) (hdestroys : s.destroys ≠ 0)
    (h : s.conneectDestroyed = .ok t) : t.Ok ∧ s.torn = false ∧ t.torn = true ∧
      (t.world.conn.state_ = .kDisconnecting ↔ s.world.conn.state_ = .kDisconnecting) := by
  obtain ⟨w, hw, h⟩ := bind_eq_ok.1 h
  obtain ⟨w', hw', hrefines⟩ := TcpConnection.conneectDestroyed_spec hs.sound
  obtain rfl := Except.ok.inj (hw'.symm.trans hw)
  obtain rfl := Except.ok.inj h
  have hcount : s.destroys + s.torn.toNat = 1 := by
    cases hs.stage with
    | listed _ _ hzero => exact absurd hzero hdestroys
    | removed _ _ _ _ hcount => exact hcount
    | abandoned _ _ hcount => exact hcount
  have htorn : s.torn = false := by
    cases hst : s.torn with
    | false => rfl
    | true =>
      rw [hst] at hcount
      simp only [Bool.toNat_true] at hcount
      omega
  have hone : s.destroys = 1 := by simpa [htorn] using hcount
  by_cases hconnected : s.world.conn.state_ = .kConnected
  · -- it is disconnected now, and the callback has been told
    have hlink : w'.link = s.world.link.disconnect.call .remove := by
      rw [hrefines.link_eq, Link.conneectDestroyed, World.link_state, if_pos hconnected]
    have hstate : w'.conn.state_ = .kDisconnected := by
      rw [← World.link_state, hlink]
      rfl
    have hcallbacks : callbacks w'.trace = callbacks s.world.trace ++ [.kDisconnected] := by
      rw [show w'.trace = w'.link.trace from rfl, hlink]
      simp [Link.disconnect, callbacks, World.link]
    refine ⟨⟨hrefines.sound, .inr ⟨hstate, ?_⟩, ?_⟩, htorn, rfl, by simp [hstate, hconnected]⟩
    · rw [hcallbacks]
      rcases hs.callbacks_eq with ⟨-, hc⟩ | ⟨hd, -⟩
      · rw [hc]
        rfl
      · rw [hconnected] at hd
        cases hd
    · cases hs.stage with
      | listed _ _ hzero => exact absurd hzero hdestroys
      | removed hd =>
        rw [hconnected] at hd
        cases hd
      | abandoned hserver hconnections =>
        exact .abandoned hserver hconnections (by simp [hone]) (by simp [hstate])
  · have hlink : w'.link = s.world.link.call .remove := by
      rw [hrefines.link_eq, Link.conneectDestroyed, World.link_state, if_neg hconnected]
    have hstate : w'.conn.state_ = s.world.conn.state_ := by
      rw [← World.link_state, hlink]
      rfl
    have htrace : w'.trace = s.world.trace := by
      rw [show w'.trace = w'.link.trace from rfl, hlink]
      rfl
    refine ⟨⟨hrefines.sound, ?_, ?_⟩, htorn, rfl, by simp only [hstate]⟩
    · simp only [hstate, htrace]
      exact hs.callbacks_eq
    · cases hs.stage with
      | listed _ _ hzero => exact absurd hzero hdestroys
      | removed hd hserver hconnections hremovals =>
        exact .removed (by simp only [hstate, hd]) hserver hconnections hremovals (by simp [hone])
      | abandoned hserver hconnections =>
        exact .abandoned hserver hconnections (by simp [hone]) (by simpa only [hstate] using
          fun _ => hconnected)

/-! ## Runs -/

/-- A life after the run `actions` from `s₀`. It ends `kDisconnecting` just when `conneectDestroyed`
has found it so. -/
structure After (s₀ : Life ι) (actions : List Action) (s : Life ι) : Prop where
  ok : s.Ok
  not_occurs : s.torn = false → ¬Occurs step TearsHalfClosed s₀ actions
  occurs_iff : s.torn = true →
    (Occurs step TearsHalfClosed s₀ actions ↔ s.world.conn.state_ = .kDisconnecting)

theorem run_after {w : World ι} {actions : List Action} {t : Life ι} (hw : w.Established)
    (h : run step (start w) actions = .ok t) : After (start w) actions t := by
  refine run_induction (motive := fun actions t => After (start w) actions t) ?_ ?_ h
  · exact ⟨start_ok hw, fun _ => id, fun h => Bool.noConfusion h⟩
  · intro actions a s t hs ht hafter
    have hoccurs : Occurs step TearsHalfClosed (start w) (actions ++ [a]) ↔
        Occurs step TearsHalfClosed (start w) actions ∨ TearsHalfClosed s a := by
      simp [occurs_concat, hs]
    -- the steps that do not tear
    have hkeep : ¬TearsHalfClosed s a → t.Ok → t.torn = s.torn →
        (s.torn = true → t.world.conn.state_ = s.world.conn.state_) →
        After (start w) (actions ++ [a]) t := by
      intro hnot hok htorn hstate
      refine ⟨hok, ?_, ?_⟩
      · rw [hoccurs, or_iff_left hnot, htorn]
        exact hafter.not_occurs
      · rw [hoccurs, or_iff_left hnot, htorn]
        intro hst
        rw [hafter.occurs_iff hst, hstate hst]
    have hsame : t = s → ¬TearsHalfClosed s a → After (start w) (actions ++ [a]) t := by
      rintro rfl hnot
      exact hkeep hnot hafter.ok rfl fun _ => rfl
    cases a with
    | op op =>
      obtain ⟨hok, htorn, hstate⟩ := hafter.ok.exec ht
      exact hkeep id hok htorn hstate
    | removeConnectionInLoop =>
      simp only [step] at ht
      split at ht
      next => exact hsame (Except.ok.inj ht).symm id
      next hremovals =>
        obtain ⟨hok, htorn, hworld⟩ := hafter.ok.removeConnectionInLoop hremovals ht
        exact hkeep id hok htorn fun _ => by rw [hworld]
    | destroyServer =>
      simp only [step] at ht
      split at ht
      next hserver =>
        obtain rfl := Except.ok.inj ht
        exact hkeep id (hafter.ok.destroyServer hserver) rfl fun _ => rfl
      next => exact hsame (Except.ok.inj ht).symm id
    | conneectDestroyed =>
      simp only [step] at ht
      split at ht
      next hnone => exact hsame (Except.ok.inj ht).symm fun h => h.1 hnone
      next hdestroys =>
        obtain ⟨hok, htorn, htorn', hstate⟩ := hafter.ok.conneectDestroyed hdestroys ht
        refine ⟨hok, fun h => absurd (htorn'.symm.trans h) Bool.noConfusion, fun _ => ?_⟩
        rw [hoccurs, or_iff_right (hafter.not_occurs htorn), hstate]
        exact and_iff_right hdestroys

/-- **The end of a connection, exactly**: after `conneectDestroyed`, `connectionCallback_` has been
called once with `connected()` and then once with `disconnected()`, and the assertion of the
destructor holds, if and only if `conneectDestroyed` has not found the connection
`kDisconnecting`. -/
theorem endsWell_iff {w : World ι} {actions : List Action} {t : Life ι} (hw : w.Established)
    (h : run step (start w) actions = .ok t) (htorn : t.torn = true) :
    t.EndsWell ↔ ¬Occurs step TearsHalfClosed (start w) actions := by
  obtain ⟨hok, -, hoccurs⟩ := run_after hw h
  rw [hoccurs htorn]
  unfold EndsWell TcpConnection.destruct
  rcases hok.callbacks_eq with ⟨hlive, hc⟩ | ⟨hstate, hc⟩
  · -- the callback has been called once, and the connection is `kDisconnecting`
    have hstate : t.world.conn.state_ = .kDisconnecting := by
      refine hlive.resolve_left fun hconnected => ?_
      cases hok.stage with
      | listed _ _ _ hnot => exact absurd (hnot.symm.trans htorn) Bool.noConfusion
      | removed hd => exact absurd (hconnected.symm.trans hd) (by decide)
      | abandoned _ _ _ hne => exact hne htorn hconnected
    simp [hc, hstate]
  · simp [hc, hstate]

/-- A connection that is shut down, closes, and is removed. -/
theorem endsWell_iff_closed : ∃ (w : World Unit) (t : Life Unit), w.Established ∧
    run step (start w) [.op (.shutdown true), .op .handleClose, .removeConnectionInLoop,
      .conneectDestroyed] = .ok t ∧ t.torn = true ∧
      (t.EndsWell ↔ ¬Occurs step TearsHalfClosed (start w) [.op (.shutdown true),
        .op .handleClose, .removeConnectionInLoop, .conneectDestroyed]) := by
  have hrun : (TcpConnection.conneectEstableished (TcpConnection.newWorld false) >>= fun w =>
      run step (start w) [.op (.shutdown true), .op .handleClose, .removeConnectionInLoop,
        .conneectDestroyed]).map torn = .ok true := by
    decide +kernel
  obtain ⟨t, ht, htorn⟩ := exists_of_map hrun
  obtain ⟨w, hw, ht⟩ := bind_eq_ok.1 ht
  have hestablished : w.Established := ⟨TcpConnection.newWorld false, TcpConnection.newWorld_fresh false, hw⟩
  exact ⟨w, t, hestablished, ht, htorn, endsWell_iff hestablished ht htorn⟩

/-- A connection that is shut down, and whose server is destroyed before the peer closes. -/
theorem not_endsWell_half_closed : ¬∀ (w : World Unit) (actions : List Action) (t : Life Unit),
    w.Established → run step (start w) actions = .ok t → t.torn = true → t.EndsWell := by
  intro h
  have hrun : (TcpConnection.conneectEstableished (TcpConnection.newWorld false) >>= fun w =>
      run step (start w) [.op (.shutdown true), .destroyServer, .conneectDestroyed]).map
        (fun t => (t.torn, t.world.conn.state_)) = .ok (true, .kDisconnecting) := by
    decide +kernel
  obtain ⟨t, ht, hview⟩ := exists_of_map hrun
  obtain ⟨w, hw, ht⟩ := bind_eq_ok.1 ht
  obtain ⟨htorn, hstate⟩ := Prod.mk.inj hview
  have hend := h w _ t ⟨TcpConnection.newWorld false, TcpConnection.newWorld_fresh false, hw⟩ ht htorn
  have hdestruct := hend.2
  rw [TcpConnection.destruct, hstate] at hdestruct
  cases hdestruct

end Life

end Muduo
