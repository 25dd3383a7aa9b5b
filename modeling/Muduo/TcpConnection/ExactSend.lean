import Muduo.TcpConnection.Stream

/-!
# Sends of any size

`send` passes the size of its string on as an `int`, and `sendInLoop` turns it into a `size_t`
again. `SendsAll` says that a string has been handed to the kernel and saved in the output buffer,
whole and in order; `ExactSend` that a send does so, or throws, and that the conversions keep the
size. `exactSend_iff`: this holds exactly up to `INT_MAX` bytes. A longer string is cut to its size
modulo `2 ^ 32`, when that is a positive `int`, and otherwise is not read at all.
-/

namespace Muduo

open Memory Run

variable {ι : Type}

/-- From `w` to `w'` the bytes of `buf` have been handed to the kernel or appended to the output
buffer, in order, and no `::write` asked for more than there is. -/
def SendsAll (w w' : World ι) (buf : List UInt8) : Prop :=
  ∃ effects appended, w'.trace = w.trace ++ effects ∧
    (∀ count wrote, Effect.write count wrote ∈ effects → count ≤ buf.length) ∧
    w'.conn.outputBuffer_.readable = w.conn.outputBuffer_.readable ++ appended ∧
    handedBytes effects ++ appended = buf

/-- What was sent is determined by the connection before and after. -/
theorem SendsAll.unique {w w' : World ι} {buf buf' : List UInt8} (h : SendsAll w w' buf)
    (h' : SendsAll w w' buf') : buf = buf' := by
  obtain ⟨effects, appended, htrace, -, hout, rfl⟩ := h
  obtain ⟨effects', appended', htrace', -, hout', rfl⟩ := h'
  rw [List.append_cancel_left (htrace.symm.trans htrace'),
    List.append_cancel_left (hout.symm.trans hout')]

namespace Link

/-- Saving hands nothing over. -/
theorem saveRemaining_quiet (l : Link ι) (bytes : List UInt8) :
    ∃ rest, (l.saveRemaining bytes).trace = l.trace ++ rest ∧ handedBytes rest = [] ∧
      ∀ count wrote, Effect.write count wrote ∉ rest := by
  obtain ⟨rest, htrace, hrest⟩ := l.saveRemaining_trace bytes
  refine ⟨rest, htrace, handedBytes_of_quiet fun e he => ?_, fun count wrote hmem => ?_⟩
  · obtain ⟨size, rfl⟩ := hrest e he
    rfl
  · obtain ⟨size, hqueued⟩ := hrest _ hmem
    cases hqueued

/-- A send on a link that is not disconnected, whose direct write does not fail for good, hands over
or keeps all of its bytes. -/
theorem send_all (l : Link ι) {m : List UInt8} {write : Write} (hstate : l.state_ ≠ .kDisconnected)
    (hfaults : ¬Faults write m.length) :
    ∃ effects appended, (l.send m write).trace = l.trace ++ effects ∧
      (∀ count wrote, Effect.write count wrote ∈ effects → count ≤ m.length) ∧
      (l.send m write).pending = l.pending ++ appended ∧ handedBytes effects ++ appended = m := by
  have hsends := l.send_sends m write
  generalize l.send m write = l' at hsends ⊢
  cases hsends with
  | disconnected hdisconnected => exact absurd hdisconnected hstate
  | dropped _ h => exact absurd h hfaults
  | finished =>
    refine ⟨_, [], by rw [complete_trace, emit_trace, List.append_assoc], ?_, by simp, ?_⟩
    · intro count wrote hmem
      split at hmem <;> simp at hmem <;> omega
    · split <;> simp [Effect.handed, Wrote.bytes]
  | rejected _ _ hm errno =>
    refine ⟨[.write m.length (.failed errno)], [], rfl, ?_, by simp, ?_⟩
    · intro count wrote hmem
      simp at hmem
      omega
    · simp [Effect.handed, Wrote.bytes, hm]
  | @saved _ _ n _ _ wrote hbytes =>
    obtain ⟨rest, htrace, hquiet, hrest⟩ :=
      (l.emit (.write m.length wrote)).saveRemaining_quiet (m.drop n)
    refine ⟨.write m.length wrote :: rest, m.drop n, ?_, ?_, ?_, ?_⟩
    · rw [htrace, emit_trace, List.append_assoc, List.singleton_append]
    · intro count wrote' hmem
      rcases List.mem_cons.1 hmem with heq | hmem
      · simp at heq
        omega
      · exact absurd hmem (hrest count wrote')
    · simp
    · rw [handedBytes_cons, hquiet, List.append_nil, Effect.handed, hbytes, List.take_append_drop]
  | skipped _ _ hm => exact ⟨[], [], by simp, by simp, by simp, by simp [hm]⟩
  | buffered =>
    obtain ⟨rest, htrace, hquiet, hrest⟩ := l.saveRemaining_quiet m
    refine ⟨rest, m, htrace, ?_, by simp, ?_⟩
    · intro count wrote hmem
      exact absurd hmem (hrest count wrote)
    · rw [hquiet, List.nil_append]

end Link

namespace TcpConnection

variable {w w' : World ι}

/-- Sending the first `n` bytes of a string sends them all. -/
theorem sendsAll_take (hw : w.Sound) (hstate : w.conn.state_ = .kConnected) {data : List UInt8}
    (hmax : data.length ≤ maxSize) {n : ℕ} (hn : n ≤ data.length) {write : Write}
    (hfaults : ¬Link.Faults write n) (h : sendInLoop w data n write = .ok w') :
    SendsAll w w' (data.take n) := by
  have hrefines := sendInLoop_take hw hmax hn h
  have hlen : (data.take n).length = n := List.length_take_of_le hn
  have hfaults' : ¬Link.Faults write (data.take n).length := by rwa [hlen]
  obtain ⟨effects, appended, htrace, hcount, hpending, hsent⟩ :=
    w.link.send_all (by simp [hstate]) hfaults'
  rw [← hrefines.link_eq] at htrace hpending
  exact ⟨effects, appended, htrace, hcount, hpending, hsent⟩

/-! ## A send returns, or throws -/

theorem checkHighWaterMark_output (w : World ι) (n : ℕ) :
    (checkHighWaterMark w n).conn.outputBuffer_ = w.conn.outputBuffer_ := by
  simp only [checkHighWaterMark]
  split <;> rfl

/-- The direct write of the first `n` bytes returns, and leaves the output buffer. -/
theorem writeDirectly_returns (w : World ι) {data : List UInt8} (hmax : data.length ≤ maxSize)
    {n : ℕ} (hn : n ≤ data.length) (write : Write) :
    ∃ v nwrote remaining faultError,
      writeDirectly w data n write = .ok (v, nwrote, remaining, faultError) ∧
        v.conn.outputBuffer_ = w.conn.outputBuffer_ := by
  have hlen : castSize n = n := castSize_natCast (by
    unfold maxSize at hmax
    omega)
  rw [writeDirectly, hlen]
  cases hanswer : write n with
  | wrote count le =>
    have hread : sysWrite data 0 n write = .ok (.handed (slice data 0 count)) := by
      rw [sysWrite, hanswer]
      simp only
      rw [readBytes_ok.2 ⟨by omega, rfl⟩]
      rfl
    rw [hread]
    refine ⟨_, _, _, _, rfl, ?_⟩
    split <;> rfl
  | failed errno =>
    have hread : sysWrite data 0 n write = .ok (.failed errno) := by rw [sysWrite, hanswer]
    rw [hread]
    exact ⟨_, _, _, _, rfl, rfl⟩

/-- Saving `n` bytes of a string that has them returns, or throws because the vector would pass
`max_size()`. -/
theorem saveRemaining_returns (hw : w.Sound) {data : List UInt8} (hmax : data.length ≤ maxSize)
    {k n : ℕ} (hn : k + n ≤ data.length) :
    (∃ w', saveRemaining w data k n = .ok w') ∨
      saveRemaining w data k n = .error .lengthError ∧
        maxSize < w.conn.outputBuffer_.writerIndex_ + n := by
  have hcheck := checkHighWaterMark_spec hw n (by
    unfold maxSize at hmax
    omega)
  have hdata : n ≤ (data.drop k).length := by
    rw [List.length_drop]
    omega
  rcases Buffer.append_spec hcheck.sound.valid hdata (by omega) with
    ⟨out, hout, hvalid, -⟩ | ⟨herr, hlt⟩
  · left
    have hset := hcheck.trans (setOutput_spec hcheck.sound hvalid)
    rw [saveRemaining, hout, ok_bind]
    simp only
    split
    · exact ⟨_, rfl⟩
    · obtain ⟨w', hcall, -⟩ := callChannel_spec hset.sound .enableWriting
      exact ⟨w', hcall⟩
  · rw [checkHighWaterMark_output] at hlt
    refine .inr ⟨?_, hlt⟩
    rw [saveRemaining, herr]
    rfl

theorem sendInLoop_returns (hw : w.Sound) {data : List UInt8} (hmax : data.length ≤ maxSize) {n : ℕ}
    (hn : n ≤ data.length) (write : Write) :
    (∃ w', sendInLoop w data n write = .ok w') ∨
      sendInLoop w data n write = .error .lengthError ∧
        maxSize < w.conn.outputBuffer_.writerIndex_ + n := by
  rw [sendInLoop]
  split
  · exact .inl ⟨w, rfl⟩
  · -- what the direct part leaves
    obtain ⟨v, nwrote, remaining, faultError, hdirect, hout⟩ : ∃ v nwrote remaining faultError,
        (if !w.conn.channel_.isWriting ∧ w.conn.outputBuffer_.readableBytes = 0 then
          writeDirectly w data n write
        else .ok (w, 0, castSize n, false)) = .ok (v, nwrote, remaining, faultError) ∧
          v.conn.outputBuffer_ = w.conn.outputBuffer_ := by
      split
      · exact writeDirectly_returns w hmax hn write
      · exact ⟨w, 0, castSize n, false, rfl, rfl⟩
    obtain ⟨hv, rfl, -⟩ := direct_ok hw hmax hn hdirect
    simp only [hdirect, ok_bind]
    split
    next hrest =>
      rcases saveRemaining_returns hv.sound hmax (by omega : nwrote + (n - nwrote) ≤ data.length)
        with hret | ⟨herr, hlt⟩
      · exact .inl hret
      · rw [hout] at hlt
        exact .inr ⟨herr, by omega⟩
    next => exact .inl ⟨v, rfl⟩

/-! ## Exactness -/

/-- **A send is exact**: the conversions keep the length of the string, whatever was written of it;
the send returns, or throws because the output buffer would pass `max_size()`; and when it returns
it has sent all of the string. -/
structure ExactSend (w : World ι) (buf : List UInt8) (write : Write) : Prop where
  length : ∀ nwrote ≤ buf.length, castSize (castInt buf.length - nwrote) = buf.length - nwrote
  returns : (∃ w', send w buf write = .ok w') ∨
    send w buf write = .error .lengthError ∧
      maxSize < w.conn.outputBuffer_.writerIndex_ + buf.length
  sends : ∀ w', send w buf write = .ok w' → SendsAll w w' buf

theorem send_eq (hstate : w.conn.state_ = .kConnected) (buf : List UInt8) (write : Write) :
    send w buf write = sendInLoop w buf (castInt buf.length) write := by
  rw [send, if_pos hstate]

/-- The size of a string keeps its value through `int` and back up to `INT_MAX` only. -/
theorem castSize_castInt {n : ℕ} (hn : n ≤ maxSize) : castSize (castInt n) = n ↔ n ≤ INT_MAX := by
  unfold maxSize at hn
  unfold castSize castInt INT_MAX
  split <;> omega

theorem exactSend_of_le (hw : w.Sound) (hstate : w.conn.state_ = .kConnected) {buf : List UInt8}
    (hmax : buf.length ≤ maxSize) {write : Write} (hlen : buf.length ≤ INT_MAX)
    (hfaults : ¬Link.Faults write buf.length) : ExactSend w buf write where
  length nwrote hnwrote := by
    rw [castInt_of_le hlen, castSize_sub, castSize_natCast]
    · unfold maxSize at hmax
      omega
    · rw [castSize_natCast (by unfold maxSize at hmax; omega)]
      exact hnwrote
  returns := by
    rw [send_eq hstate, castInt_of_le hlen]
    exact sendInLoop_returns hw hmax (Nat.le_refl _) write
  sends w' h := by
    rw [send_eq hstate, castInt_of_le hlen] at h
    have hall := sendsAll_take hw hstate hmax (Nat.le_refl _) hfaults h
    rwa [List.take_length] at hall

/-- A longer string is never sent, even when the send returns. -/
theorem not_sendsAll (hw : w.Sound) (hstate : w.conn.state_ = .kConnected) {buf : List UInt8}
    (hmax : buf.length ≤ maxSize) {write : Write} (hlen : INT_MAX < buf.length)
    (hfaults : ¬Link.Faults write (castSize (castInt buf.length)))
    (h : send w buf write = .ok w') : ¬SendsAll w w' buf := by
  intro hall
  rw [send_eq hstate] at h
  have hne : castSize (castInt buf.length) ≠ buf.length := by
    rw [ne_eq, castSize_castInt hmax]
    omega
  rcases Int.lt_or_le (castInt buf.length) 0 with hneg | hpos
  · -- a negative `int` is a `size_t` past the end of the string
    have hout : buf.length < castSize (castInt buf.length) := by
      have hrange := (castInt_range buf.length).1
      unfold maxSize at hmax
      unfold castSize
      omega
    rcases sendInLoop_out hw hmax hout h with rfl | ⟨errno, hrefines⟩
    · have hnil : SendsAll w' w' [] := ⟨[], [], by simp, by simp, by simp, rfl⟩
      rw [hall.unique hnil] at hlen
      exact Nat.not_lt_zero _ hlen
    · obtain ⟨effects, -, htrace, hcount, -, -⟩ := hall
      have hwrite : w'.trace =
          w.trace ++ [.write (castSize (castInt buf.length)) (.failed errno)] :=
        congrArg Link.trace hrefines.link_eq
      have hmem : Effect.write (castSize (castInt buf.length)) (.failed errno) ∈ effects := by
        rw [List.append_cancel_left (htrace.symm.trans hwrite)]
        exact List.mem_singleton_self _
      have hle := hcount _ _ hmem
      omega
  · -- the string is cut
    obtain ⟨k, hk⟩ := Int.eq_ofNat_of_zero_le hpos
    have hkle : k ≤ buf.length := by
      have hle := castInt_le buf.length
      omega
    have hcast : castSize k = k := castSize_natCast (by
      unfold maxSize at hmax
      omega)
    rw [hk] at h hfaults hne
    rw [hcast] at hfaults hne
    have hcut := hall.unique (sendsAll_take hw hstate hmax hkle hfaults h)
    have hlength := congrArg List.length hcut
    rw [List.length_take_of_le hkle] at hlength
    exact hne hlength.symm

/-- **Sends of any size, exactly**: on a connected connection, whatever the kernel answers but
`EPIPE` and `ECONNRESET`, a send is exact if and only if its string has at most `INT_MAX` bytes; and
a send of a longer one that returns has not sent it. -/
theorem exactSend_iff (hw : w.Sound) (hstate : w.conn.state_ = .kConnected) {buf : List UInt8}
    (hmax : buf.length ≤ maxSize) {write : Write}
    (hfaults : ¬Link.Faults write (castSize (castInt buf.length))) :
    (ExactSend w buf write ↔ buf.length ≤ INT_MAX) ∧
      (INT_MAX < buf.length → ∀ w', send w buf write = .ok w' → ¬SendsAll w w' buf) := by
  refine ⟨⟨fun hexact => ?_, fun hlen => ?_⟩, fun hlen w' h =>
    not_sendsAll hw hstate hmax hlen hfaults h⟩
  · have hlength := hexact.length 0 (Nat.zero_le _)
    rw [Int.natCast_zero, Int.sub_zero, Nat.sub_zero] at hlength
    exact (castSize_castInt hmax).1 hlength
  · rw [(castSize_castInt hmax).2 hlen] at hfaults
    exact exactSend_of_le hw hstate hmax hlen hfaults

/-- One byte, on an established connection. -/
theorem exactSend_iff_letter : ∃ w : World Unit, w.Sound ∧ w.conn.state_ = .kConnected ∧
    (ExactSend w letter.bytes takesAll ↔ letter.bytes.length ≤ INT_MAX) ∧
      (INT_MAX < letter.bytes.length → ∀ w', send w letter.bytes takesAll = .ok w' →
        ¬SendsAll w w' letter.bytes) := by
  obtain ⟨w, -, hestablished⟩ := (newWorld_fresh false).established
  obtain ⟨hsound, hinitial⟩ := hestablished.spec
  exact ⟨w, hsound, hinitial.state_eq,
    exactSend_iff hsound hinitial.state_eq (by decide) (by rintro ⟨errno, h, -⟩; cases h)⟩

/-- The size of `2 ^ 32` bytes is cut to zero. -/
theorem not_exactSend_long :
    ¬∀ (w : World Unit) (buf : List UInt8) (write : Write), w.Sound → w.conn.state_ = .kConnected →
      buf.length ≤ maxSize → ¬Link.Faults write (castSize (castInt buf.length)) →
        ExactSend w buf write := by
  intro h
  obtain ⟨w, -, hestablished⟩ := (newWorld_fresh false).established
  obtain ⟨hsound, hinitial⟩ := hestablished.spec
  have hlen : (List.replicate (2 ^ 32) (0 : UInt8)).length = 2 ^ 32 := List.length_replicate
  have hexact := h w (List.replicate (2 ^ 32) 0) takesAll hsound hinitial.state_eq
    (by rw [hlen]; decide) (by rintro ⟨errno, h, -⟩; cases h)
  have hlength := hexact.length 0 (Nat.zero_le _)
  rw [hlen] at hlength
  exact absurd hlength (by decide)

end TcpConnection

end Muduo
