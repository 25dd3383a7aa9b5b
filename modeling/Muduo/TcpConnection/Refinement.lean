import Muduo.TcpConnection.Link

/-!
# The connection refines the link

`World.link` is the abstraction. The lemmas `…_spec` and `…_ok` say that each function of the
connection, when it returns, is the step of the link under the same name (`World.Refines`): the
output buffer holds the pending bytes, no conversion changes a count, and the channel keeps agreeing
with the poller.
-/

namespace Muduo

open Memory Run

variable {ι : Type}

/-- The link of a connection. -/
def World.link (w : World ι) : Link ι where
  self := w.self
  state_ := w.conn.state_
  channel_ := w.conn.channel_
  pending := w.conn.outputBuffer_.readable
  highWaterMark_ := w.conn.highWaterMark_
  writeCompleteCallback_ := w.conn.writeCompleteCallback_
  highWaterMarkCallback_ := w.conn.highWaterMarkCallback_
  queue := w.loop.pendingFunctors_
  trace := w.trace

@[simp] theorem World.link_state (w : World ι) : w.link.state_ = w.conn.state_ := rfl

@[simp] theorem World.link_channel (w : World ι) : w.link.channel_ = w.conn.channel_ := rfl

/-- What every function of the connection relies on: the output buffer is valid, and the channel
agrees with the poller. -/
structure World.Sound (w : World ι) : Prop where
  valid : w.conn.outputBuffer_.Valid
  agrees : Agrees w.loop.poller w.self w.conn.channel_

/-- From `w` to `w'` the connection has made the step of its link to `l`, and the poller has changed
for its descriptor only. -/
structure World.Refines (w w' : World ι) (l : Link ι) : Prop where
  sound : w'.Sound
  link_eq : w'.link = l
  fd_eq : w'.conn.channel_.fd_ = w.conn.channel_.fd_
  frame : Frame w.loop.poller w'.loop.poller w.conn.channel_.fd_

theorem Frame.refl (p : EpollPoller ι) (fd : ℕ) : Frame p p fd := ⟨fun _ _ => rfl, rfl⟩

theorem Frame.trans {p q r : EpollPoller ι} {fd : ℕ} (h : Frame p q fd) (h' : Frame q r fd) :
    Frame p r fd :=
  ⟨fun fd' hne => (h'.entry_eq fd' hne).trans (h.entry_eq fd' hne),
    h'.failures_eq.trans h.failures_eq⟩

/-- Steps that change neither the channel nor the output buffer nor the poller refine. -/
theorem World.Refines.of_eq {w w' : World ι} (hw : w.Sound) (hself : w'.self = w.self)
    (hchannel : w'.conn.channel_ = w.conn.channel_)
    (hout : w'.conn.outputBuffer_ = w.conn.outputBuffer_)
    (hpoller : w'.loop.poller = w.loop.poller) : w.Refines w' w'.link := by
  refine ⟨⟨?_, ?_⟩, rfl, ?_, ?_⟩
  · rw [hout]
    exact hw.valid
  · rw [hself, hchannel, hpoller]
    exact hw.agrees
  · rw [hchannel]
  · rw [hpoller]
    exact Frame.refl _ _

theorem World.Refines.trans {w w' w'' : World ι} {l l' : Link ι} (h : w.Refines w' l)
    (h' : w'.Refines w'' l') : w.Refines w'' l' :=
  ⟨h'.sound, h'.link_eq, h'.fd_eq.trans h.fd_eq, h.frame.trans (h.fd_eq ▸ h'.frame)⟩

namespace TcpConnection

open World

variable {w w' : World ι}

/-! ## Steps that cannot fail -/

theorem emit_spec (hw : w.Sound) (e : Effect) : w.Refines (emit w e) (w.link.emit e) :=
  .of_eq hw rfl rfl rfl rfl

theorem queueInLoop_spec (hw : w.Sound) (task : Task) :
    w.Refines (queueInLoop w task) (w.link.queueInLoop task) :=
  .of_eq hw rfl rfl rfl rfl

theorem setState_spec (hw : w.Sound) (state : StateE) :
    w.Refines (setState w state) (w.link.setState state) :=
  .of_eq hw rfl rfl rfl rfl

theorem shutdownInLoop_spec (hw : w.Sound) : w.Refines (shutdownInLoop w) w.link.shutdownInLoop := by
  have hlink : (shutdownInLoop w).link = w.link.shutdownInLoop := by
    unfold shutdownInLoop Link.shutdownInLoop
    exact apply_ite World.link _ _ _
  rw [← hlink]
  unfold shutdownInLoop
  split <;> exact .of_eq hw rfl rfl rfl rfl

/-- Queueing `writeCompleteCallback_`, when `p` holds and it is set. -/
theorem complete_spec (hw : w.Sound) (p : Prop) [Decidable p] :
    w.Refines
      (if p ∧ w.conn.writeCompleteCallback_ then queueInLoop w .writeCompleteCallback else w)
      (if p then w.link.complete else w.link) := by
  have hlink : (if p ∧ w.conn.writeCompleteCallback_ then queueInLoop w .writeCompleteCallback
      else w).link = if p then w.link.complete else w.link := by
    rw [ite_and, apply_ite World.link, apply_ite World.link]
    rfl
  rw [← hlink]
  split <;> exact .of_eq hw rfl rfl rfl rfl

theorem callChannel_spec (hw : w.Sound) (call : Channel.Call) :
    ∃ w', callChannel w call = .ok w' ∧ w.Refines w' (w.link.call call) := by
  obtain ⟨p, hret, hagrees, hframe⟩ := call.exec_spec hw.agrees
  refine ⟨{ w with conn.channel_ := call.after w.conn.channel_, loop.poller := p }, ?_,
    ⟨hw.valid, hagrees⟩, rfl, Channel.Call.fd_after _ _, hframe⟩
  rw [callChannel, hret]
  rfl

theorem callChannel_ok (hw : w.Sound) {call : Channel.Call} (h : callChannel w call = .ok w') :
    w.Refines w' (w.link.call call) := by
  obtain ⟨v, hv, hrefines⟩ := callChannel_spec hw call
  obtain rfl := Except.ok.inj (hv.symm.trans h)
  exact hrefines

/-- Another output buffer. -/
theorem setOutput_spec (hw : w.Sound) {out : Buffer} (hout : out.Valid) :
    w.Refines (setOutput w out) (w.link.setPending out.readable) :=
  ⟨⟨hout, hw.agrees⟩, rfl, rfl, Frame.refl _ _⟩

/-! ## Sending -/

theorem readableBytes_eq (hw : w.Sound) :
    w.conn.outputBuffer_.readableBytes = w.link.pending.length :=
  hw.valid.length_readable.symm

theorem readableBytes_eq_zero (hw : w.Sound) :
    w.conn.outputBuffer_.readableBytes = 0 ↔ w.link.pending = [] :=
  hw.valid.readableBytes_eq_zero

/-- The direct write of the first `n` bytes: no conversion changes a count. -/
theorem writeDirectly_ok (hw : w.Sound) {data : List UInt8} (hmax : data.length ≤ maxSize) {n : ℕ}
    (hn : n ≤ data.length) {write : Write} {nwrote remaining : ℕ} {faultError : Bool}
    (h : writeDirectly w data n write = .ok (w', nwrote, remaining, faultError)) :
    w.Refines w' w'.link ∧
      (w'.link, nwrote, faultError) = w.link.writeDirectly (data.take n) write ∧
      remaining = n - nwrote := by
  unfold maxSize at hmax
  have hlen : castSize n = n := castSize_natCast (by omega)
  have htake : (data.take n).length = n := List.length_take_of_le hn
  obtain ⟨wrote, hwrote, h⟩ := bind_eq_ok.1 h
  rw [hlen] at hwrote h
  rcases sysWrite_ok hwrote with ⟨k, hle, hanswer, hk, rfl⟩ | ⟨errno, hanswer, rfl⟩
  · have hcount : (slice data 0 k).length = k := length_slice hk
    have hbytes : slice data 0 k = (data.take n).take k := by
      rw [List.take_take, Nat.min_eq_left hle]
      rfl
    have hrest : castSize ((n : ℤ) - k) = n - k := by
      rw [castSize_sub (by omega), hlen]
    have hdone : n - k = 0 ↔ k = n := by omega
    simp only [hcount, hrest] at h
    have h := Except.ok.inj h
    simp only [Prod.mk.injEq] at h
    obtain ⟨rfl, rfl, rfl, rfl⟩ := h
    have hemit := emit_spec hw (.write n (.handed (slice data 0 k)))
    have hrefines := hemit.trans (complete_spec hemit.sound (n - k = 0))
    refine ⟨by rw [hrefines.link_eq]; exact hrefines, ?_, rfl⟩
    rw [hrefines.link_eq, Link.writeDirectly_wrote _ htake hanswer, ← hbytes]
    simp only [hdone]
    rfl
  · have h := Except.ok.inj h
    simp only [Prod.mk.injEq] at h
    obtain ⟨rfl, rfl, rfl, rfl⟩ := h
    refine ⟨emit_spec hw (.write n (.failed errno)), ?_, rfl⟩
    -- `EPIPE` and `ECONNRESET` are not `EWOULDBLOCK`
    have hfault : (errno != EWOULDBLOCK && (errno == EPIPE || errno == ECONNRESET)) =
        decide (errno = EPIPE ∨ errno = ECONNRESET) := by
      by_cases h₁ : errno = EPIPE
      · subst h₁
        rfl
      · by_cases h₂ : errno = ECONNRESET
        · subst h₂
          rfl
        · simp [h₁, h₂]
    rw [Link.writeDirectly_failed _ htake hanswer, hfault]
    rfl

theorem checkHighWaterMark_spec (hw : w.Sound) (remaining : ℕ) (hlt : remaining < 2 ^ 63) :
    w.Refines (checkHighWaterMark w remaining) (w.link.checkHighWaterMark remaining) := by
  have hpending : w.link.pending.length < 2 ^ 63 := by
    have := hw.valid.size_lt
    have := hw.valid.readableBytes_eq
    have := hw.valid.writer_le
    rw [← readableBytes_eq hw]
    omega
  have hwrap : sizeWrap (w.link.pending.length + remaining) = w.link.pending.length + remaining :=
    sizeWrap_of_lt (by omega)
  have hlink : (checkHighWaterMark w remaining).link = w.link.checkHighWaterMark remaining := by
    simp only [checkHighWaterMark, Link.checkHighWaterMark, readableBytes_eq hw, hwrap]
    exact apply_ite World.link _ _ _
  rw [← hlink]
  simp only [checkHighWaterMark]
  split <;> exact .of_eq hw rfl rfl rfl rfl

theorem ensureWriting_ok (hw : w.Sound)
    (h : (if w.conn.channel_.isWriting then pure w else callChannel w .enableWriting) = .ok w') :
    w.Refines w' w.link.ensureWriting := by
  rw [Link.ensureWriting, link_channel]
  split at h
  next hwriting =>
    obtain rfl := Except.ok.inj h
    rw [if_pos hwriting]
    exact .of_eq hw rfl rfl rfl rfl
  next hwriting =>
    rw [if_neg hwriting]
    exact callChannel_ok hw h

/-- Saving what remains of the first `n` bytes behind the pending ones. -/
theorem saveRemaining_ok (hw : w.Sound) {data : List UInt8} (hmax : data.length ≤ maxSize)
    {n k : ℕ} (hn : n ≤ data.length) (h : saveRemaining w data k (n - k) = .ok w') :
    w.Refines w' (w.link.saveRemaining ((data.take n).drop k)) := by
  have hlen : ((data.take n).drop k).length = n - k := by
    rw [List.length_drop, List.length_take_of_le hn]
  have hcheck := checkHighWaterMark_spec hw (n - k) (by
    unfold maxSize at hmax
    omega)
  obtain ⟨out, hout, h⟩ := bind_eq_ok.1 h
  obtain ⟨-, hvalid, hreadable⟩ := Buffer.append_ok hcheck.sound.valid (by
    rw [List.length_drop]
    omega) hout
  rw [← List.drop_take] at hreadable
  have hset := hcheck.trans (setOutput_spec hcheck.sound hvalid)
  have hwrite := hset.trans (ensureWriting_ok hset.sound h)
  rw [hset.link_eq, hreadable, hcheck.link_eq] at hwrite
  have hpending : (checkHighWaterMark w (n - k)).conn.outputBuffer_.readable =
      (w.link.checkHighWaterMark (n - k)).pending := by
    rw [← hcheck.link_eq]
    rfl
  rw [Link.saveRemaining, hlen]
  rwa [hpending] at hwrite

/-- What the direct part of `sendInLoop` leaves, whether it writes or not. -/
theorem direct_ok (hw : w.Sound) {data : List UInt8} (hmax : data.length ≤ maxSize) {n : ℕ}
    (hn : n ≤ data.length) {write : Write} {nwrote remaining : ℕ} {faultError : Bool}
    (h : (if !w.conn.channel_.isWriting ∧ w.conn.outputBuffer_.readableBytes = 0 then
        writeDirectly w data n write
      else .ok (w, 0, castSize n, false)) = .ok (w', nwrote, remaining, faultError)) :
    w.Refines w' w'.link ∧ remaining = n - nwrote ∧ (w'.link, nwrote, faultError) =
      if w.link.channel_.isWriting = false ∧ w.link.pending = [] then
        w.link.writeDirectly (data.take n) write
      else (w.link, 0, false) := by
  simp only [readableBytes_eq_zero hw, Bool.not_eq_true'] at h
  split at h
  next hidle =>
    obtain ⟨hrefines, hlink, hrest⟩ := writeDirectly_ok hw hmax hn h
    rw [link_channel, if_pos hidle]
    exact ⟨hrefines, hrest, hlink⟩
  next hbusy =>
    have hlen : castSize n = n := castSize_natCast (by
      unfold maxSize at hmax
      omega)
    have h := Except.ok.inj h
    simp only [hlen, Prod.mk.injEq] at h
    obtain ⟨rfl, rfl, rfl, rfl⟩ := h
    rw [link_channel, if_neg hbusy]
    exact ⟨.of_eq hw rfl rfl rfl rfl, rfl, rfl⟩

/-- **Sending** the first `n` bytes of a string is the step of the link. -/
theorem sendInLoop_take (hw : w.Sound) {data : List UInt8} (hmax : data.length ≤ maxSize) {n : ℕ}
    (hn : n ≤ data.length) {write : Write} (h : sendInLoop w data n write = .ok w') :
    w.Refines w' (w.link.send (data.take n) write) := by
  unfold sendInLoop at h
  rw [Link.send, link_state]
  split at h
  next hstate =>
    obtain rfl := Except.ok.inj h
    rw [if_pos hstate]
    exact .of_eq hw rfl rfl rfl rfl
  next hstate =>
    rw [if_neg hstate]
    obtain ⟨⟨v, nwrote, remaining, faultError⟩, hdirect, h⟩ := bind_eq_ok.1 h
    obtain ⟨hv, rfl, hlink⟩ := direct_ok hw hmax hn hdirect
    rw [← hlink]
    simp only [Bool.not_eq_true', Nat.sub_pos_iff_lt, List.length_take_of_le hn] at h ⊢
    split at h
    next hrest =>
      rw [if_pos hrest]
      exact hv.trans (saveRemaining_ok hv.sound hmax hn h)
    next hdone =>
      obtain rfl := Except.ok.inj h
      rw [if_neg hdone]
      exact hv

/-- Nothing can be saved from past the end of a string. -/
theorem saveRemaining_out (hw : w.Sound) {data : List UInt8} (hmax : data.length ≤ maxSize)
    {k n : ℕ} (hk : k ≤ data.length) (hn : data.length - k < n) :
    saveRemaining w data k n ≠ .ok w' := by
  intro h
  obtain ⟨out, hout, -⟩ := bind_eq_ok.1 h
  have hvalid : (checkHighWaterMark w n).conn.outputBuffer_.Valid := by
    simp only [checkHighWaterMark]
    split <;> exact hw.valid
  have hlen := (Buffer.append_ok hvalid (by rw [List.length_drop]; omega) hout).1
  rw [List.length_drop] at hlen
  omega

/-- A send that reaches past the end of its string returns without having read it, or is dropped. -/
theorem sendInLoop_out (hw : w.Sound) {data : List UInt8} (hmax : data.length ≤ maxSize) {len : ℤ}
    (hlen : data.length < castSize len) {write : Write}
    (h : sendInLoop w data len write = .ok w') :
    w' = w ∨ ∃ errno, w.Refines w' (w.link.emit (.write (castSize len) (.failed errno))) := by
  unfold sendInLoop at h
  split at h
  next => exact .inl (Except.ok.inj h).symm
  next hstate =>
    obtain ⟨⟨v, nwrote, remaining, faultError⟩, hdirect, h⟩ := bind_eq_ok.1 h
    simp only [Bool.not_eq_true'] at hdirect h
    split at hdirect
    next hidle =>
      obtain ⟨wrote, hwrote, hdirect⟩ := bind_eq_ok.1 hdirect
      rcases sysWrite_ok hwrote with ⟨k, hle, -, hk, rfl⟩ | ⟨errno, -, rfl⟩
      · -- what was not written cannot be saved
        exfalso
        have hcount : (slice data 0 k).length = k := length_slice hk
        have hdirect := Except.ok.inj hdirect
        simp only [hcount, Prod.mk.injEq] at hdirect
        obtain ⟨rfl, rfl, rfl, rfl⟩ := hdirect
        have hrest := castSize_sub hle
        rw [if_pos ⟨rfl, by omega⟩] at h
        refine saveRemaining_out ?_ hmax (by omega) (by omega) h
        split <;> exact ⟨hw.valid, hw.agrees⟩
      · have hdirect := Except.ok.inj hdirect
        simp only [Prod.mk.injEq] at hdirect
        obtain ⟨rfl, rfl, rfl, rfl⟩ := hdirect
        have hemit := emit_spec hw (.write (castSize len) (.failed errno))
        split at h
        next => exact absurd h (saveRemaining_out hemit.sound hmax (Nat.zero_le _) (by omega))
        next =>
          obtain rfl := Except.ok.inj h
          exact .inr ⟨errno, hemit⟩
    next hbusy =>
      have hdirect := Except.ok.inj hdirect
      simp only [Prod.mk.injEq] at hdirect
      obtain ⟨rfl, rfl, rfl, rfl⟩ := hdirect
      rw [if_pos ⟨rfl, by omega⟩] at h
      exact absurd h (saveRemaining_out hw hmax (Nat.zero_le _) (by omega))

/-- Sending a message of at most `INT_MAX` bytes. -/
theorem sendInLoop_ok (hw : w.Sound) {m : List UInt8} (hm : m.length ≤ INT_MAX) {write : Write}
    (h : sendInLoop w m m.length write = .ok w') : w.Refines w' (w.link.send m write) := by
  have hmax : m.length ≤ maxSize := by
    unfold INT_MAX at hm
    unfold maxSize
    omega
  have hsend := sendInLoop_take hw hmax (Nat.le_refl _) h
  rwa [List.take_length] at hsend

/-! ## Events -/

/-- Half-closing, when the state is `kDisconnecting`. -/
theorem finish_spec (hw : w.Sound) :
    w.Refines (if w.conn.state_ = .kDisconnecting then shutdownInLoop w else w)
      (if w.link.state_ = .kDisconnecting then w.link.shutdownInLoop else w.link) := by
  rw [link_state]
  split
  · exact shutdownInLoop_spec hw
  · exact .of_eq hw rfl rfl rfl rfl

theorem drained_ok (hw : w.Sound) (h : drained w = .ok w') : w.Refines w' w.link.drained := by
  obtain ⟨v, hv, h⟩ := bind_eq_ok.1 h
  have hcall := callChannel_ok hw hv
  have hcomplete := hcall.trans (complete_spec hcall.sound True)
  rw [if_pos trivial, hcall.link_eq] at hcomplete
  simp only [true_and] at hcomplete
  have hfinish := hcomplete.trans (finish_spec hcomplete.sound)
  rw [hcomplete.link_eq] at hfinish
  rw [← Except.ok.inj h]
  exact hfinish

theorem advance_ok (hw : w.Sound) {n : ℕ} (h : advance w n = .ok w') :
    w.Refines w' (w.link.advance n) := by
  have hset := setOutput_spec hw (Buffer.retrieve_valid hw.valid n)
  rw [Buffer.readable_retrieve hw.valid] at hset
  unfold advance at h
  simp only [readableBytes_eq_zero hset.sound, hset.link_eq] at h
  unfold Link.advance
  split at h
  next hdone =>
    have hdrained := hset.trans (drained_ok hset.sound h)
    rw [hset.link_eq] at hdrained
    exact (if_pos hdone).symm ▸ hdrained
  next hmore =>
    obtain rfl := Except.ok.inj h
    exact (if_neg hmore).symm ▸ hset

theorem handleWrite_ok (hw : w.Sound) {write : Write} (h : handleWrite w write = .ok w') :
    w.Refines w' (w.link.handleWrite write) := by
  unfold handleWrite at h
  rw [Link.handleWrite, link_channel]
  split at h
  next hwriting =>
    rw [if_pos hwriting]
    obtain ⟨wrote, hwrote, h⟩ := bind_eq_ok.1 h
    rw [readableBytes_eq hw] at h
    have hanswer := sysWrite_ok hwrote
    rw [readableBytes_eq hw] at hanswer
    rcases hanswer with ⟨n, hle, hanswer, hn, rfl⟩ | ⟨errno, hanswer, rfl⟩
    · have hcount : (slice w.conn.outputBuffer_.buffer_ w.conn.outputBuffer_.readerIndex_ n).length =
          n := length_slice hn
      have htake : slice w.conn.outputBuffer_.buffer_ w.conn.outputBuffer_.readerIndex_ n =
          w.link.pending.take n := by
        rw [← readableBytes_eq hw, hw.valid.readableBytes_eq] at hle
        exact (take_slice _ _ hle).symm
      have hemit := emit_spec hw (.write w.link.pending.length (.handed (w.link.pending.take n)))
      rw [htake] at hcount
      rw [hanswer]
      simp only [htake, hcount] at h ⊢
      split at h
      next hpos =>
        have hadvance := hemit.trans (advance_ok hemit.sound h)
        rw [hemit.link_eq] at hadvance
        rwa [if_pos hpos]
      next hzero =>
        obtain rfl := Except.ok.inj h
        rwa [if_neg hzero]
    · rw [hanswer]
      obtain rfl := Except.ok.inj h
      exact emit_spec hw _
  next hidle =>
    rw [if_neg hidle]
    obtain rfl := Except.ok.inj h
    exact .of_eq hw rfl rfl rfl rfl

theorem disconnect_spec (hw : w.Sound) :
    ∃ w', disconnect w = .ok w' ∧ w.Refines w' w.link.disconnect := by
  have hstate := setState_spec hw .kDisconnected
  obtain ⟨v, hv, hcall⟩ := callChannel_spec hstate.sound .disableAll
  have hcall := hstate.trans hcall
  have hv' : v.conn.state_ = .kDisconnected := by
    rw [← link_state, hcall.link_eq]
    rfl
  have hemit := hcall.trans (emit_spec hcall.sound (.connectionCallback .kDisconnected))
  rw [hcall.link_eq] at hemit
  refine ⟨emit v (.connectionCallback .kDisconnected), ?_, hemit⟩
  rw [disconnect, hv, ok_bind, hv']
  rfl

/-- `handleClose` returns on a live connection only. -/
theorem handleClose_ok (hw : w.Sound) (h : handleClose w = .ok w') :
    (w.conn.state_ = .kConnected ∨ w.conn.state_ = .kDisconnecting) ∧
      w.Refines w' w.link.handleClose := by
  unfold handleClose at h
  split at h
  next hlive =>
    obtain ⟨v, hv, hdisconnect⟩ := disconnect_spec hw
    rw [hv] at h
    obtain rfl := Except.ok.inj h
    have hclose := hdisconnect.trans (emit_spec hdisconnect.sound .closeCallback)
    rw [hdisconnect.link_eq] at hclose
    exact ⟨hlive, hclose⟩
  next => cases h

/-- `handleRead` closes on a live connection only. -/
theorem handleRead_ok (hw : w.Sound) {recv : Recv} {extraBuffer : List UInt8}
    {onMessage : Buffer → Buffer} (h : handleRead w recv extraBuffer onMessage = .ok w') :
    ∃ n input, w.conn.inputBuffer_.readFd recv extraBuffer = .ok (n, input) ∧
      (n = 0 → w.conn.state_ = .kConnected ∨ w.conn.state_ = .kDisconnecting) ∧
      w.Refines w' (w.link.handleRead n) := by
  obtain ⟨⟨n, input⟩, hread, h⟩ := bind_eq_ok.1 h
  refine ⟨n, input, hread, ?_⟩
  have hinput : w.Refines { w with conn.inputBuffer_ := input } w.link :=
    .of_eq hw rfl rfl rfl rfl
  simp only at h
  unfold Link.handleRead
  split at h
  next hpos =>
    obtain rfl := Except.ok.inj h
    rw [if_pos hpos]
    exact ⟨fun hzero => by omega, .of_eq hw rfl rfl rfl rfl⟩
  next hnot =>
    rw [if_neg hnot]
    split at h
    next hzero =>
      obtain ⟨hlive, hclose⟩ := handleClose_ok hinput.sound h
      rw [if_pos hzero]
      exact ⟨fun _ => hlive, hinput.trans hclose⟩
    next hneg =>
      obtain rfl := Except.ok.inj h
      rw [if_neg hneg]
      exact ⟨fun hzero => absurd hzero hneg, hinput⟩

/-! ## The life of a connection -/

theorem shutdown_spec (hw : w.Sound) (inLoop : Bool) :
    w.Refines (shutdown w inLoop) (w.link.shutdown inLoop) := by
  unfold shutdown Link.shutdown
  rw [link_state]
  split
  · have hstate := setState_spec hw .kDisconnecting
    cases inLoop with
    | true => exact hstate.trans (shutdownInLoop_spec hstate.sound)
    | false => exact hstate.trans (queueInLoop_spec hstate.sound .shutdownInLoop)
  · exact .of_eq hw rfl rfl rfl rfl

theorem conneectEstableished_spec (hw : w.Sound) :
    ∃ w', conneectEstableished w = .ok w' ∧ w.Refines w' w.link.conneectEstableished := by
  have hstate := setState_spec hw .kConnected
  -- `tie` leaves what the poller looks at alone
  have htie : (setState w .kConnected).Refines
      { setState w .kConnected with conn.channel_ := w.conn.channel_.tie }
      { w.link.setState .kConnected with channel_ := w.conn.channel_.tie } :=
    ⟨⟨hw.valid, hw.agrees⟩, rfl, rfl, Frame.refl _ _⟩
  have hset := hstate.trans htie
  obtain ⟨v, hv, hcall⟩ := callChannel_spec hset.sound .enableReading
  have hcall := hset.trans hcall
  have hv' : v.conn.state_ = .kConnected := by
    rw [← link_state, hcall.link_eq]
    rfl
  have hemit := hcall.trans (emit_spec hcall.sound (.connectionCallback .kConnected))
  rw [hcall.link_eq] at hemit
  refine ⟨emit v (.connectionCallback .kConnected), ?_, hemit⟩
  rw [conneectEstableished]
  simp only [setState] at hv ⊢
  rw [hv, ok_bind, hv']
  rfl

theorem conneectDestroyed_spec (hw : w.Sound) :
    ∃ w', conneectDestroyed w = .ok w' ∧ w.Refines w' w.link.conneectDestroyed := by
  unfold conneectDestroyed Link.conneectDestroyed
  rw [link_state]
  split
  · obtain ⟨v, hv, hdisconnect⟩ := disconnect_spec hw
    obtain ⟨u, hu, hremove⟩ := callChannel_spec hdisconnect.sound .remove
    have hremove := hdisconnect.trans hremove
    rw [hdisconnect.link_eq] at hremove
    exact ⟨u, by rw [hv, ok_bind, hu], hremove⟩
  · exact callChannel_spec hw .remove

end TcpConnection

end Muduo
