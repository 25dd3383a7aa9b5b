import Muduo.TcpConnection.Steps

/-!
# What a connection watches for

A live connection watches for one of three sets of events (`Link.Watching`): `kReadEvent`, with
which it starts; `EPOLLIN` alone, once a write event has emptied the output buffer; and `EPOLLIN`
with `kWriteEvent`, while bytes wait. Both `kReadEvent` and `kWriteEvent` contain `EPOLLPRI`, so
`isWriting()` is true from the start, and what is sent then waits for a write event that was never
asked for. `noStalledOutput_iff` says in which runs this is ever put right.
-/

namespace Muduo

open Run

variable {ι : Type}

namespace Link

variable {l : Link ι}

/-- The connection is established and not closed. -/
def Live (l : Link ι) : Prop := l.state_ = .kConnected ∨ l.state_ = .kDisconnecting

theorem Live.ne (h : l.Live) : l.state_ ≠ .kDisconnected := by
  rcases h with h | h <;> rw [h] <;> decide

/-- The events a connection starts with. -/
def Starting (l : Link ι) : Prop := l.channel_.events_ = Channel.kReadEvent

/-- Nothing waits, and the connection watches for input only. -/
structure Idle (l : Link ι) : Prop where
  events_eq : l.channel_.events_ = EPOLLIN
  pending_eq : l.pending = []

/-- Bytes wait, and the connection watches for both. -/
structure Busy (l : Link ι) : Prop where
  events_eq : l.channel_.events_ = EPOLLIN ||| Channel.kWriteEvent
  pending_ne : l.pending ≠ []

/-- A live connection is registered, and watches for one of the three sets of events. -/
structure Watching (l : Link ι) : Prop where
  index_eq : l.channel_.index_ = .kAdd
  events : l.Starting ∨ l.Idle ∨ l.Busy

theorem Starting.isWriting (h : l.Starting) : l.channel_.isWriting = true := by
  rw [Channel.isWriting, show l.channel_.events_ = _ from h]
  decide

theorem Idle.isWriting (h : l.Idle) : l.channel_.isWriting = false := by
  rw [Channel.isWriting, h.events_eq]
  decide

theorem Busy.isWriting (h : l.Busy) : l.channel_.isWriting = true := by
  rw [Channel.isWriting, h.events_eq]
  decide

theorem Watching.of_eq {l' : Link ι} (h : l.Watching) (hchannel : l'.channel_ = l.channel_)
    (hpending : l'.pending = l.pending) : l'.Watching := by
  refine ⟨hchannel ▸ h.index_eq, h.events.imp (fun hl => ?_) (Or.imp (fun hl => ?_) fun hl => ?_)⟩
  · exact (congrArg Channel.events_ hchannel).trans hl
  · exact ⟨hchannel ▸ hl.events_eq, hpending ▸ hl.pending_eq⟩
  · exact ⟨hchannel ▸ hl.events_eq, hpending ▸ hl.pending_ne⟩

/-- A live connection that is not writing has nothing to write. -/
theorem Watching.pending_eq (h : l.Watching) (hwriting : l.channel_.isWriting = false) :
    l.pending = [] := by
  rcases h.events with hl | hl | hl
  · exact absurd (hl.isWriting.symm.trans hwriting) Bool.noConfusion
  · exact hl.pending_eq
  · exact absurd (hl.isWriting.symm.trans hwriting) Bool.noConfusion

/-! ## Sends -/

/-- A send that does not write directly keeps its bytes, and changes nothing else that matters
here. -/
theorem send_of_isWriting (hlive : l.state_ ≠ .kDisconnected)
    (hwriting : l.channel_.isWriting = true) (m : List UInt8) (write : Write) :
    (l.send m write).channel_ = l.channel_ ∧ (l.send m write).pending = l.pending ++ m := by
  have hdirect : ¬l.Direct := fun h => Bool.noConfusion (hwriting.symm.trans h.2.1)
  have hsends := l.send_sends m write
  generalize l.send m write = l' at hsends ⊢
  cases hsends with
  | disconnected hstate => exact absurd hstate hlive
  | dropped h | finished h | rejected h | saved h => exact absurd h hdirect
  | skipped _ _ hm => exact ⟨rfl, by rw [hm, List.append_nil]⟩
  | buffered => simp [ensureWriting, hwriting]

/-- From idle, a send leaves the connection idle or makes it busy. -/
theorem Idle.send (h : l.Idle) (hindex : l.channel_.index_ = .kAdd) (m : List UInt8)
    (write : Write) : (l.send m write).channel_.index_ = .kAdd ∧
      ((l.send m write).Idle ∨ (l.send m write).Busy) := by
  have hidle := h.isWriting
  -- what saving bytes makes of an idle connection
  have hsaved : ∀ (e : Effect) (rest : List UInt8), rest ≠ [] →
      ((l.emit e).saveRemaining rest).channel_.index_ = .kAdd ∧
        ((l.emit e).saveRemaining rest).Busy := by
    intro e rest hrest
    refine ⟨?_, ⟨?_, ?_⟩⟩
    · simp [ensureWriting, hidle, Channel.Call.after, Channel.watched, Index.updated, hindex,
        h.events_eq]
      decide
    · simp [ensureWriting, hidle, Channel.Call.after, Channel.watched, h.events_eq]
    · simp [hrest]
  have hsends := l.send_sends m write
  generalize l.send m write = l' at hsends ⊢
  cases hsends with
  | disconnected => exact ⟨hindex, .inl h⟩
  | dropped | rejected => exact ⟨hindex, .inl ⟨h.events_eq, h.pending_eq⟩⟩
  | finished =>
    refine ⟨?_, .inl ⟨?_, ?_⟩⟩
    · simpa using hindex
    · simpa using h.events_eq
    · simpa using h.pending_eq
  | @saved _ _ n hn _ wrote _ =>
    have hrest : m.drop n ≠ [] := fun hnil => absurd (List.drop_eq_nil_iff.1 hnil) (by omega)
    obtain ⟨hindex', hbusy⟩ := hsaved (.write m.length wrote) (m.drop n) hrest
    exact ⟨hindex', .inr hbusy⟩
  | skipped => exact ⟨hindex, .inl h⟩
  | buffered hstate hdirect => exact absurd ⟨hstate, hidle, h.pending_eq⟩ hdirect

/-! ## Write events -/

/-- The write event empties an output buffer that held something. -/
def Empties (l : Link ι) (write : Write) : Prop :=
  l.channel_.isWriting = true ∧ l.pending ≠ [] ∧
    (write l.pending.length).count = l.pending.length

/-- A write event that empties the buffer leaves the connection idle. -/
theorem handleWrite_of_empties (hl : l.Watching) {write : Write} (h : l.Empties write) :
    (l.handleWrite write).channel_.index_ = .kAdd ∧ (l.handleWrite write).Idle := by
  obtain ⟨hwriting, hpending, hcount⟩ := h
  have hwrites := l.handleWrite_writes write
  generalize l.handleWrite write = l' at hwrites ⊢
  cases hwrites with
  | idle hidle => exact absurd (hwriting.symm.trans hidle) Bool.noConfusion
  | none _ hzero =>
    rw [hcount] at hzero
    exact absurd (List.length_eq_zero_iff.1 hzero) hpending
  | some _ _ hlt hcount' =>
    rw [hcount] at hcount'
    omega
  | all =>
    have hevents : l.channel_.events_ &&& ~~~Channel.kWriteEvent = EPOLLIN := by
      rcases hl.events with hl | hl | hl
      · rw [show l.channel_.events_ = _ from hl]
        decide
      · exact absurd hl.pending_eq hpending
      · rw [hl.events_eq]
        decide
    refine ⟨?_, ⟨?_, ?_⟩⟩
    · simp [Channel.Call.after, Channel.watched, Index.updated, hl.index_eq, hevents]
      decide
    · simp [Channel.Call.after, Channel.watched, hevents]
    · simp

/-- A write event that does not empty it leaves the channel alone, and something waits if it did
before. -/
theorem handleWrite_of_not_empties {write : Write} (h : ¬l.Empties write) :
    (l.handleWrite write).channel_ = l.channel_ ∧
      ((l.handleWrite write).pending = [] ↔ l.pending = []) := by
  have hwrites := l.handleWrite_writes write
  generalize l.handleWrite write = l' at hwrites ⊢
  cases hwrites with
  | idle | none => exact ⟨rfl, Iff.rfl⟩
  | some _ hpos hlt =>
    refine ⟨rfl, ?_⟩
    have hne : l.pending ≠ [] := fun hnil => by simp [hnil] at hlt
    simp only [setPending_pending, List.drop_eq_nil_iff, hne, iff_false]
    omega
  | all hwriting hpending hcount => exact absurd ⟨hwriting, hpending, hcount⟩ h

/-- Half-closing and closing keep a connection from being live, or leave its channel and what waits
alone. -/
theorem handleRead_of_live {n : ℤ} (h : (l.handleRead n).Live) :
    l.Live ∧ (l.handleRead n).channel_ = l.channel_ ∧ (l.handleRead n).pending = l.pending := by
  unfold handleRead at h ⊢
  split at h
  next hpos => exact ⟨h, by simp [hpos]⟩
  next hnot =>
    split at h
    next hzero => simp [Live, handleClose, disconnect] at h
    next hneg => exact ⟨h, by simp [hnot, hneg]⟩

theorem shutdown_fields (l : Link ι) (inLoop : Bool) :
    (l.shutdown inLoop).channel_ = l.channel_ ∧ (l.shutdown inLoop).pending = l.pending := by
  unfold shutdown
  split
  · cases inLoop <;> simp
  · exact ⟨rfl, rfl⟩

end Link

namespace TcpConnection

variable {w w' : World ι}

/-- The step empties an output buffer that held something. -/
def Op.Empties (w : World ι) : Op → Prop
  | .handleWrite write => w.link.Empties write
  | _ => False

/-- The step is a send of at least one byte on a connection that is not disconnected. -/
def Op.SendsBytes (w : World ι) : Op → Prop
  | .sendInLoop m _ => w.conn.state_ ≠ .kDisconnected ∧ m.bytes ≠ []
  | _ => False

theorem Op.live_of_live {op : Op} (h : (op.link w).Live) : w.link.Live := by
  cases op with
  | sendInLoop m write => simpa [Op.link, Link.Live] using h
  | handleRead recv extraBuffer onMessage =>
    simp only [Op.link] at h
    split at h
    · exact (Link.handleRead_of_live h).1
    · exact h
  | handleWrite write => simpa [Op.link, Link.Live] using h
  | handleClose => simp [Op.link, Link.Live, Link.handleClose, Link.disconnect] at h
  | handleError => exact h
  | shutdown inLoop =>
    simp only [Op.link, Link.shutdown] at h
    split at h
    next hconnected => exact .inl hconnected
    next => exact h
  | shutdownInLoop => simpa [Op.link, Link.Live] using h

/-- No step goes back to `kConnecting`. -/
theorem Op.link_state_ne {op : Op} (h : w.conn.state_ ≠ .kConnecting) :
    (op.link w).state_ ≠ .kConnecting := by
  cases op with
  | sendInLoop | handleWrite => simpa [Op.link] using h
  | handleRead recv extraBuffer onMessage =>
    simp only [Op.link]
    split
    · unfold Link.handleRead
      split
      · exact h
      · split
        · simp [Link.handleClose, Link.disconnect]
        · exact h
    · exact h
  | handleClose => simp [Op.link, Link.handleClose, Link.disconnect]
  | handleError => exact h
  | shutdown inLoop =>
    simp only [Op.link, Link.shutdown]
    split
    · cases inLoop <;> simp
    · exact h
  | shutdownInLoop => simpa [Op.link] using h

/-- A step that is neither a send nor a write event leaves the channel and what waits alone, or
closes the connection. -/
theorem Op.link_quiet {op : Op} (hsend : ∀ m write, op ≠ .sendInLoop m write)
    (hwrite : ∀ write, op ≠ .handleWrite write) (hlive : (op.link w).Live) :
    (op.link w).channel_ = w.link.channel_ ∧ (op.link w).pending = w.link.pending := by
  cases op with
  | sendInLoop m write => exact absurd rfl (hsend m write)
  | handleWrite write => exact absurd rfl (hwrite write)
  | handleRead recv extraBuffer onMessage =>
    simp only [Op.link] at hlive ⊢
    split at hlive
    · exact (Link.handleRead_of_live hlive).2
    · exact ⟨rfl, rfl⟩
  | handleClose => simp [Op.link, Link.Live, Link.handleClose, Link.disconnect] at hlive
  | handleError => exact ⟨rfl, rfl⟩
  | shutdown inLoop => exact w.link.shutdown_fields inLoop
  | shutdownInLoop => simp [Op.link]

/-- Before the first write event that empties the buffer, a connection keeps watching for what it
started with, and what was sent waits. -/
theorem Op.starting_step {op : Op} (hs : w.link.Starting) (hempties : ¬op.Empties w)
    (hlive : (op.link w).Live) : (op.link w).channel_ = w.link.channel_ ∧
      ((op.link w).pending ≠ [] ↔ w.link.pending ≠ [] ∨ op.SendsBytes w) := by
  have hstate : w.conn.state_ ≠ .kDisconnected := by
    rcases Op.live_of_live hlive with h | h <;> simp_all
  cases op with
  | sendInLoop m write =>
    obtain ⟨hchannel, hpending⟩ := Link.send_of_isWriting hstate hs.isWriting m.bytes write
    refine ⟨hchannel, ?_⟩
    simp only [Op.link, Op.SendsBytes, hpending]
    simp [hstate, not_and_or, -not_and]
  | handleWrite write =>
    obtain ⟨hchannel, hpending⟩ := Link.handleWrite_of_not_empties hempties
    exact ⟨hchannel, by simp only [Op.link, Op.SendsBytes, hpending, ne_eq, or_false]⟩
  | handleRead | handleClose | handleError | shutdown | shutdownInLoop =>
    obtain ⟨hchannel, hpending⟩ := Op.link_quiet (by simp) (by simp) hlive
    exact ⟨hchannel, by simp only [Op.SendsBytes, hpending, or_false]⟩

/-- Once a connection is idle or busy it stays so, until it closes. -/
theorem Op.settled_step {op : Op} (hindex : w.link.channel_.index_ = .kAdd)
    (hs : w.link.Idle ∨ w.link.Busy) (hlive : (op.link w).Live) :
    (op.link w).channel_.index_ = .kAdd ∧ ((op.link w).Idle ∨ (op.link w).Busy) := by
  -- with the same channel, and something waiting if something did
  have hkeep : ∀ l : Link ι, l.channel_ = w.link.channel_ → (l.pending = [] ↔ w.link.pending = []) →
      l.channel_.index_ = .kAdd ∧ (l.Idle ∨ l.Busy) := by
    intro l hchannel hpending
    rw [hchannel]
    refine ⟨hindex, hs.imp (fun h => ⟨?_, hpending.2 h.pending_eq⟩) fun h => ⟨?_, ?_⟩⟩
    · rw [hchannel, h.events_eq]
    · rw [hchannel, h.events_eq]
    · exact fun hnil => h.pending_ne (hpending.1 hnil)
  cases op with
  | sendInLoop m write =>
    rcases hs with hidle | hbusy
    · exact hidle.send hindex m.bytes write
    · have hstate : w.conn.state_ ≠ .kDisconnected := by
        rcases Op.live_of_live hlive with h | h <;> simp_all
      obtain ⟨hchannel, hpending⟩ := Link.send_of_isWriting hstate hbusy.isWriting m.bytes write
      exact hkeep _ hchannel (by simp [Op.link, hpending, hbusy.pending_ne])
  | handleWrite write =>
    by_cases hempties : w.link.Empties write
    · obtain ⟨hindex', hidle⟩ := Link.handleWrite_of_empties ⟨hindex, .inr hs⟩ hempties
      exact ⟨hindex', .inl hidle⟩
    · obtain ⟨hchannel, hpending⟩ := Link.handleWrite_of_not_empties hempties
      exact hkeep _ hchannel hpending
  | handleRead | handleClose | handleError | shutdown | shutdownInLoop =>
    obtain ⟨hchannel, hpending⟩ := Op.link_quiet (by simp) (by simp) hlive
    exact hkeep _ hchannel (by rw [hpending])

/-! ## Runs -/

/-- What a run has done to a live connection. -/
inductive Interest (w : World ι) (ops : List Op) (l : Link ι) : Prop
  /-- No write event has emptied the buffer, and bytes wait if any were sent. -/
  | starting (hstarting : l.Starting) (hempties : ¬Occurs Op.exec Op.Empties w ops)
      (hpending : l.pending ≠ [] ↔ Occurs Op.exec Op.SendsBytes w ops)
  /-- A write event has emptied the buffer. -/
  | settled (hempties : Occurs Op.exec Op.Empties w ops) (hsettled : l.Idle ∨ l.Busy)

/-- **The interest of a connection** over a run from its establishment. -/
theorem interest {ops : List Op} (hw : w.Established) (h : run Op.exec w ops = .ok w') :
    w'.Sound ∧ (w'.link.Live → w'.link.channel_.index_ = .kAdd ∧ Interest w ops w'.link) := by
  obtain ⟨hsound, hinitial⟩ := hw.spec
  refine run_induction (motive := fun ops w' =>
    w'.Sound ∧ (w'.link.Live → w'.link.channel_.index_ = .kAdd ∧ Interest w ops w'.link)) ?_ ?_ h
  · refine ⟨hsound, fun _ => ⟨hinitial.index_eq, .starting hinitial.events_eq id ?_⟩⟩
    simp [hinitial.pending_eq, Occurs]
  · rintro ops op t u ht hu ⟨htsound, ih⟩
    have hrefines := Op.exec_ok htsound hu
    refine ⟨hrefines.sound, ?_⟩
    rw [hrefines.link_eq]
    intro hlive
    have hempties : Occurs Op.exec Op.Empties w (ops ++ [op]) ↔
        Occurs Op.exec Op.Empties w ops ∨ op.Empties t := by simp [occurs_concat, ht]
    have hsends : Occurs Op.exec Op.SendsBytes w (ops ++ [op]) ↔
        Occurs Op.exec Op.SendsBytes w ops ∨ op.SendsBytes t := by simp [occurs_concat, ht]
    obtain ⟨hindex, hinterest⟩ := ih (Op.live_of_live hlive)
    cases hinterest with
    | starting hstarting hnot hpending =>
      by_cases hop : op.Empties t
      · cases op with
        | handleWrite write =>
          obtain ⟨hindex', hidle⟩ := Link.handleWrite_of_empties ⟨hindex, .inl hstarting⟩ hop
          exact ⟨hindex', .settled (hempties.2 (.inr hop)) (.inl hidle)⟩
        | _ => exact absurd hop id
      · obtain ⟨hchannel, hpending'⟩ := Op.starting_step hstarting hop hlive
        refine ⟨by rw [hchannel, hindex], .starting ?_ ?_ ?_⟩
        · exact (congrArg Channel.events_ hchannel).trans hstarting
        · rw [hempties]
          exact not_or.2 ⟨hnot, hop⟩
        · rw [hpending', hpending, hsends]
    | settled hocc hsettled =>
      obtain ⟨hindex', hsettled'⟩ := Op.settled_step hindex hsettled hlive
      exact ⟨hindex', .settled (hempties.2 (.inl hocc)) hsettled'⟩

/-- A connection that is not disconnected keeps watching. -/
theorem watching {ops : List Op} (hw : w.Established) (h : run Op.exec w ops = .ok w') :
    w'.Sound ∧ (w'.conn.state_ ≠ .kDisconnected → w'.link.Live ∧ w'.link.Watching) := by
  obtain ⟨hsound, hinterest⟩ := interest hw h
  refine ⟨hsound, fun hstate => ?_⟩
  have hconnecting : w'.conn.state_ ≠ .kConnecting := by
    obtain ⟨hsound₀, hinitial⟩ := hw.spec
    refine (invariant (I := fun w => w.Sound ∧ w.conn.state_ ≠ .kConnecting) ?_ ⟨hsound₀, ?_⟩ h).2
    · rintro t op u ⟨ht, hne⟩ hu
      have hrefines := Op.exec_ok ht hu
      refine ⟨hrefines.sound, ?_⟩
      rw [← World.link_state, hrefines.link_eq]
      exact Op.link_state_ne hne
    · rw [← World.link_state, hinitial.state_eq]
      decide
  have hlive : w'.link.Live := by
    unfold Link.Live
    rw [World.link_state]
    cases hs : w'.conn.state_ <;> simp_all
  obtain ⟨hindex, hinterest⟩ := hinterest hlive
  refine ⟨hlive, hindex, ?_⟩
  cases hinterest with
  | starting hstarting => exact .inl hstarting
  | settled _ hsettled => exact .inr hsettled

/-- When the connection is live and bytes wait in its output buffer, it watches for `EPOLLOUT`, and
so does the kernel for its descriptor. -/
def NoStalledOutput (w : World ι) : Prop :=
  (w.conn.state_ = .kConnected ∨ w.conn.state_ = .kDisconnecting) →
    0 < w.conn.outputBuffer_.readableBytes →
      w.conn.channel_.events_.meets EPOLLOUT ∧
        ∃ e, w.loop.poller.epoll.interest w.conn.channel_.fd_ = some e ∧ e.events.meets EPOLLOUT

/-- A registered channel is watched by the kernel for its events. -/
theorem noStalledOutput_iff_events (hw : w.Sound) (hindex : w.conn.channel_.index_ = .kAdd)
    (hlive : w.link.Live) :
    NoStalledOutput w ↔ w.link.pending ≠ [] → w.conn.channel_.events_.meets EPOLLOUT := by
  have hkernel : w.loop.poller.epoll.interest w.conn.channel_.fd_ =
      some ⟨w.conn.channel_.events_, some w.self⟩ := by
    rw [(agrees_iff.1 hw.agrees).2, Channel.entry, hindex]
  have hwaits : 0 < w.conn.outputBuffer_.readableBytes ↔ w.link.pending ≠ [] := by
    rw [readableBytes_eq hw, List.length_pos_iff]
  unfold NoStalledOutput
  rw [hkernel, hwaits]
  constructor
  · intro h hpending
    exact (h hlive hpending).1
  · intro h _ hpending
    exact ⟨h hpending, _, rfl, h hpending⟩

/-- **No stalled output, exactly**: in a state a connection reaches live, what waits is watched for
if and only if a write event has emptied the output buffer before, or no bytes have been sent. -/
theorem noStalledOutput_iff {ops : List Op} (hw : w.Established)
    (h : run Op.exec w ops = .ok w') :
    NoStalledOutput w' ↔ ((w'.conn.state_ = .kConnected ∨ w'.conn.state_ = .kDisconnecting) →
      Occurs Op.exec Op.Empties w ops ∨ ¬Occurs Op.exec Op.SendsBytes w ops) := by
  obtain ⟨hsound, hinterest⟩ := interest hw h
  by_cases hlive : w'.conn.state_ = .kConnected ∨ w'.conn.state_ = .kDisconnecting
  · obtain ⟨hindex, hinterest⟩ := hinterest hlive
    rw [noStalledOutput_iff_events hsound hindex hlive, forall_prop_of_true hlive]
    cases hinterest with
    | starting hstarting hempties hpending =>
      have hevents : w'.conn.channel_.events_.meets EPOLLOUT = false := by
        rw [show w'.conn.channel_.events_ = _ from hstarting]
        decide
      rw [hpending, hevents]
      simp [hempties]
    | settled hempties hsettled =>
      refine iff_of_true (fun hpending => ?_) (.inl hempties)
      rcases hsettled with hidle | hbusy
      · exact absurd hidle.pending_eq hpending
      · rw [show w'.conn.channel_.events_ = _ from hbusy.events_eq]
        decide
  · exact iff_of_true (fun h => absurd h hlive) (fun h => absurd h hlive)

/-- A connection that sends a byte and has it written on a write event. -/
theorem noStalledOutput_iff_written : ∃ w w' : World Unit, w.Established ∧
    run Op.exec w [.sendInLoop letter takesAll, .handleWrite takesAll] = .ok w' ∧
      (NoStalledOutput w' ↔ ((w'.conn.state_ = .kConnected ∨ w'.conn.state_ = .kDisconnecting) →
        Occurs Op.exec Op.Empties w [.sendInLoop letter takesAll, .handleWrite takesAll] ∨
          ¬Occurs Op.exec Op.SendsBytes w
            [.sendInLoop letter takesAll, .handleWrite takesAll])) := by
  have hrun : (conneectEstableished (newWorld false) >>= fun w =>
      run Op.exec w [.sendInLoop letter takesAll, .handleWrite takesAll]).isOk = true := by
    decide +kernel
  obtain ⟨w', hw'⟩ := exists_of_isOk hrun
  obtain ⟨w, hw, hw'⟩ := bind_eq_ok.1 hw'
  have hestablished : w.Established := ⟨newWorld false, newWorld_fresh false, hw⟩
  exact ⟨w, w', hestablished, hw', noStalledOutput_iff hestablished hw'⟩

/-- The first byte sent on an established connection waits, and no one watches for `EPOLLOUT`. -/
theorem stalledOutput_first_send : ¬∀ (w w' : World Unit) (ops : List Op), w.Established →
    run Op.exec w ops = .ok w' → NoStalledOutput w' := by
  intro h
  have hrun : (conneectEstableished (newWorld false) >>= fun w =>
      run Op.exec w [.sendInLoop letter takesAll]).map (fun w' => (w'.conn.state_,
        w'.conn.outputBuffer_.readableBytes, w'.conn.channel_.events_.meets EPOLLOUT)) =
      .ok (.kConnected, 1, false) := by
    decide +kernel
  obtain ⟨w', hw', hview⟩ := exists_of_map hrun
  obtain ⟨w, hw, hw'⟩ := bind_eq_ok.1 hw'
  simp only [Prod.mk.injEq] at hview
  obtain ⟨hstate, hwaits, hevents⟩ := hview
  have hnostall := h w w' _ ⟨newWorld false, newWorld_fresh false, hw⟩ hw' (.inl hstate) (by omega)
  exact absurd (hevents.symm.trans hnostall.1) Bool.noConfusion

end TcpConnection

end Muduo
