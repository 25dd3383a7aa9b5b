import Muduo.Foundations.Tokens
import Muduo.TcpServer.Stages

/-!
# The teardown protocol

What takes a connection from one stage to the next is a call that some thread has still to make. It
is a functor in a queue, or an activation on a stack, and it is the only one: a `Phase` is a stage
together with the place of this call, and the calls are the tokens of `Muduo.Foundations.Tokens`
(`Loops.tokens`). Every step of a thread takes the token of one connection, runs what it stands for,
and lays down the token of the next phase, so that the invariant `Ok` is kept whichever thread steps
and whichever way `runInLoop` goes.
-/

namespace Muduo

open Run Tokens

variable {ℓ : Type}

/-! ## Phases -/

/-- How far a connection has got, and where the call is that takes it on. -/
inductive Phase
  | unborn
  /-- In `newConnection`. -/
  | accepted
  /-- `conneectEstableished` is queued. -/
  | establishing
  | established
  /-- In `removeConnection`. -/
  | closing
  /-- `removeConnectionInLoop` is queued. -/
  | removing
  /-- In `removeConnectionInLoop`, before the erasure. -/
  | erasing
  /-- In `removeConnectionInLoop`, after the erasure. -/
  | erased
  /-- `conneectDestroyed` is queued. -/
  | destroying
  | torn
  deriving DecidableEq

/-- How far the connection itself has got in the phase. -/
def Phase.stage : Phase → Stage
  | unborn => .unborn
  | accepted | establishing => .fresh
  | established => .live
  | closing | removing | erasing => .closed
  | erased | destroying => .removed
  | torn => .torn

theorem Phase.stage_ne_torn {p : Phase} : p.stage ≠ .torn ↔ p ≠ .torn := by
  cases p <;> simp [stage]

theorem Phase.of_stage_live {p : Phase} (h : p.stage = .live) : p = .established := by
  cases p <;> first | rfl | exact Stage.noConfusion h

theorem Phase.of_stage_removed {p : Phase} (h : p.stage = .removed) :
    p = .erased ∨ p = .destroying := by
  cases p <;> first | exact .inl rfl | exact .inr rfl | exact Stage.noConfusion h

theorem Phase.of_stage_unborn {p : Phase} (h : p.stage = .unborn) : p = .unborn := by
  cases p <;> first | rfl | exact Stage.noConfusion h

/-- The loop at which the call is, for a server on `main` and a connection on `own`. -/
def Phase.home (main own : ℓ) : Phase → Option ℓ
  | accepted | removing | erasing | erased => some main
  | establishing | closing | destroying => some own
  | unborn | established | torn => none

/-- The connection that the activation takes on, in its phase. -/
def Activation.token : Activation → Option (ℕ × Phase)
  | newConnection i => some (i, .accepted)
  | handleEvent _ _ _ => none
  | removeConnection i => some (i, .closing)
  | removeConnectionInLoop i => some (i, .erasing)
  | erased i => some (i, .erased)

/-- The connection that the functor takes on, in its phase. -/
def Functor.token (f : Functor ℕ) : Option (ℕ × Phase) :=
  match f.task with
  | .conneectEstableished => some (f.conn, .establishing)
  | .removeConnectionInLoop => some (f.conn, .removing)
  | .conneectDestroyed => some (f.conn, .destroying)
  | .sendInLoop _ _ | .shutdownInLoop | .writeCompleteCallback | .highWaterMarkCallback _ => none

theorem Activation.holds_of_erased {a : Activation} {i : ℕ} (h : a.token = some (i, .erased)) :
    a.Holds i := by
  cases a with
  | erased j => exact (Prod.mk.inj (Option.some.inj h)).1
  | _ => cases h

theorem Activation.token_ne_destroying {a : Activation} {i : ℕ} :
    a.token ≠ some (i, .destroying) := by
  cases a <;> simp [token]

theorem Functor.token_ne_erased {f : Functor ℕ} {i : ℕ} : f.token ≠ some (i, .erased) := by
  unfold token
  cases f.task <;> simp

theorem Functor.conn_of_token {f : Functor ℕ} {i : ℕ} {p : Phase} (h : f.token = some (i, p)) :
    f.conn = i := by
  unfold token at h
  cases hf : f.task <;> simp_all

theorem Functor.token_of_isCallback {f : Functor ℕ} (h : f.task.IsCallback) : f.token = none := by
  unfold token
  cases hf : f.task with
  | sendInLoop | shutdownInLoop | writeCompleteCallback | highWaterMarkCallback => rfl
  | conneectEstableished | conneectDestroyed | removeConnectionInLoop =>
    rw [hf] at h
    exact absurd h id

theorem Functor.strong_of_token {f : Functor ℕ} {x : ℕ × Phase} (h : f.token = some x) :
    f.task.Strong := by
  unfold token at h
  cases hf : f.task with
  | sendInLoop | shutdownInLoop => simp [hf] at h
  | _ => trivial

theorem Task.IsCallback.strong {task : Task} (h : task.IsCallback) : task.Strong := by
  cases task <;> trivial

namespace Loops

/-- The calls that lie at the loop. -/
def tokens (s : Loops ℓ) (l : ℓ) : List (ℕ × Phase) :=
  (s.stack l).filterMap Activation.token ++ (s.queue l).filterMap Functor.token

/-- The loop where a connection in the phase is taken on. -/
def home (s : Loops ℓ) (i : ℕ) (p : Phase) : Option ℓ :=
  s.server.created[i]?.bind fun c => p.home s.server.loop_ c.loop_

variable {s t : Loops ℓ} {phase : ℕ → Phase} {gone : List ℕ} {i : ℕ} {l : ℓ}

theorem home_eq {c : Created ℓ} (hc : s.server.created[i]? = some c) (p : Phase) :
    s.home i p = p.home s.server.loop_ c.loop_ := by
  rw [home, hc, Option.bind_some]

theorem home_unborn (s : Loops ℓ) (i : ℕ) : s.home i .unborn = none := by
  unfold home
  cases s.server.created[i]? <;> rfl

/-- The home of the call is the loop of the connection. -/
theorem own_of_home {p : Phase} {c : Created ℓ} (hc : s.server.created[i]? = some c)
    (hhome : s.home i p = some l) (hp : p.home s.server.loop_ c.loop_ = some c.loop_) :
    c.loop_ = l := by
  rw [home_eq hc, hp] at hhome
  exact Option.some.inj hhome

theorem mem_tokens {x : ℕ × Phase} (h : x ∈ s.tokens l) :
    (∃ a ∈ s.stack l, a.token = some x) ∨ ∃ f ∈ s.queue l, f.token = some x := by
  simpa [tokens] using h

/-- The calls that lie at a loop in one of the first two phases lead to `conneectEstableished`. -/
theorem count_accepted (s : Loops ℓ) (l : ℓ) (i : ℕ) :
    (s.tokens l).count (i, .accepted) = (s.stack l).count (.newConnection i) := by
  have hqueue : ((s.queue l).filterMap Functor.token).count (i, .accepted) = 0 := by
    rw [List.count_filterMap, List.countP_eq_zero]
    intro f _
    unfold Functor.token
    cases f.task <;> simp
  have hstack : ((s.stack l).filterMap Activation.token).count (i, .accepted) =
      (s.stack l).count (.newConnection i) := by
    rw [List.count_filterMap, List.count]
    refine List.countP_congr fun a _ => ?_
    cases a <;> simp [Activation.token]
  rw [tokens, List.count_append, hstack, hqueue, Nat.add_zero]

theorem count_establishing (s : Loops ℓ) (l : ℓ) (i : ℕ) :
    (s.tokens l).count (i, .establishing) = (s.queue l).count ⟨i, .conneectEstableished⟩ := by
  have hstack : ((s.stack l).filterMap Activation.token).count (i, .establishing) = 0 := by
    rw [List.count_filterMap, List.countP_eq_zero]
    intro a _
    cases a <;> simp [Activation.token]
  have hqueue : ((s.queue l).filterMap Functor.token).count (i, .establishing) =
      (s.queue l).count ⟨i, .conneectEstableished⟩ := by
    rw [List.count_filterMap, List.count]
    refine List.countP_congr fun f _ => ?_
    obtain ⟨conn, task⟩ := f
    cases task <;> simp [Functor.token]
  rw [tokens, List.count_append, hstack, hqueue, Nat.zero_add]

theorem Same.home_eq (h : Same s t) : t.home = s.home := by
  funext i p
  rw [home, home, h.server_eq]

variable [DecidableEq ℓ]

/-! ## Where the tokens go -/

theorem same_goto (s : Loops ℓ) (l : ℓ) (activations : List Activation) :
    Same s (s.goto l activations) := ⟨rfl, rfl, rfl, fun _ => rfl⟩

theorem same_round (s : Loops ℓ) (l : ℓ) (fs : List (Functor ℕ)) : Same s (s.round l fs) :=
  ⟨rfl, rfl, rfl, fun _ => rfl⟩

theorem same_setPending (s : Loops ℓ) (l : ℓ) (fs : List (Functor ℕ)) :
    Same s (s.setPending l fs) := by
  refine ⟨rfl, rfl, rfl, fun l' => ?_⟩
  by_cases hl : l' = l
  · subst hl
    simp [setPending]
  · simp [setPending, hl]

theorem goto_stack_of_ne {l' : ℓ} (hl : l' ≠ l) (activations : List Activation) :
    (s.goto l activations).stack l' = s.stack l' := Function.update_of_ne hl ..

theorem goto_stack (s : Loops ℓ) (l : ℓ) (activations : List Activation) :
    (s.goto l activations).stack l = activations := Function.update_self ..

theorem setPending_queue_of_ne {l' : ℓ} (hl : l' ≠ l) (fs : List (Functor ℕ)) :
    (s.setPending l fs).queue l' = s.queue l' := by
  simp [queue, setPending, hl]

theorem setPending_queue (s : Loops ℓ) (l : ℓ) (fs : List (Functor ℕ)) :
    (s.setPending l fs).queue l = s.functors l ++ fs := by
  simp [queue, setPending]

theorem round_queue_of_ne {l' : ℓ} (hl : l' ≠ l) (fs : List (Functor ℕ)) :
    (s.round l fs).queue l' = s.queue l' := by
  simp [queue, round, hl]

theorem round_queue (s : Loops ℓ) (l : ℓ) (fs : List (Functor ℕ)) :
    (s.round l fs).queue l = fs ++ (s.loop l).pendingFunctors_ := by
  simp [queue, round]

/-- The round without its next functor. -/
theorem queue_of_functors {f : Functor ℕ} {fs : List (Functor ℕ)}
    (hfunctors : s.functors l = f :: fs) : s.queue l = f :: (s.round l fs).queue l := by
  rw [round_queue, queue, hfunctors, List.cons_append]

theorem mem_round_queue {f : Functor ℕ} {fs : List (Functor ℕ)} (hfunctors : s.functors l = f :: fs)
    {l' : ℓ} {g : Functor ℕ} (hg : g ∈ (s.round l fs).queue l') : g ∈ s.queue l' := by
  by_cases hl : l' = l
  · subst hl
    rw [queue_of_functors hfunctors]
    exact List.mem_cons_of_mem _ hg
  · rwa [round_queue_of_ne hl] at hg

theorem queueInLoop_queue (s : Loops ℓ) (l : ℓ) (cb : Functor ℕ) :
    (s.queueInLoop l cb).queue l = s.queue l ++ [cb] := by
  rw [queueInLoop, setPending_queue, ← List.append_assoc, queue]

/-- The activation on top is left. -/
theorem adds_goto {a : Activation} {rest : List Activation} (hstack : s.stack l = a :: rest)
    {x : ℕ × Phase} (htoken : a.token = some x) :
    Adds (s.goto l rest).tokens s.tokens (some l) x := by
  refine adds_some ?_ fun l' hl => ?_
  · rw [tokens, tokens, hstack, goto_stack, List.filterMap_cons_some htoken]
    exact List.Perm.refl _
  · rw [tokens, tokens, goto_stack_of_ne hl]
    rfl

theorem adds_enter (s : Loops ℓ) (l : ℓ) {a : Activation} {x : ℕ × Phase}
    (htoken : a.token = some x) : Adds s.tokens (s.enter l a).tokens (some l) x := by
  refine adds_some ?_ fun l' hl => ?_
  · rw [tokens, enter, goto_stack, List.filterMap_cons_some htoken]
    exact List.Perm.refl _
  · rw [tokens, enter, goto_stack_of_ne hl]
    rfl

/-- The next functor is taken from the round. -/
theorem adds_round {f : Functor ℕ} {fs : List (Functor ℕ)} (hfunctors : s.functors l = f :: fs)
    {x : ℕ × Phase} (htoken : f.token = some x) :
    Adds (s.round l fs).tokens s.tokens (some l) x := by
  refine adds_some ?_ fun l' hl => ?_
  · rw [tokens, tokens, queue_of_functors hfunctors, List.filterMap_cons_some htoken]
    exact List.perm_middle
  · rw [tokens, tokens, round_queue_of_ne hl]
    rfl

theorem adds_queueInLoop (s : Loops ℓ) (l : ℓ) {f : Functor ℕ} {x : ℕ × Phase}
    (htoken : f.token = some x) : Adds s.tokens (s.queueInLoop l f).tokens (some l) x := by
  refine adds_some ?_ fun l' hl => ?_
  · rw [tokens, queueInLoop_queue, List.filterMap_append, List.filterMap_cons_some htoken,
      List.filterMap_nil, ← List.append_assoc]
    exact List.perm_append_singleton ..
  · rw [tokens, queueInLoop, setPending_queue_of_ne hl]
    rfl

/-- A turn of a connection lays down no token. -/
theorem Moved.tokens_eq {c : Created ℓ} {w : World ℕ} (ht : Moved s t i c w)
    (hturns : (s.world c.loop_ i).Turns w) : t.tokens = s.tokens := by
  obtain ⟨news, hqueue, hnews⟩ := hturns.queue
  have hnone : news.filterMap Functor.token = [] :=
    List.filterMap_eq_nil_iff.2 fun f hf => Functor.token_of_isCallback (hnews f hf)
  funext l
  rw [tokens, tokens, ht.stack_eq, queue, ht.functors_eq, ht.loop_eq]
  by_cases hl : l = c.loop_
  · subst hl
    rw [Function.update_self, hqueue, ← List.append_assoc, List.filterMap_append, hnone,
      List.append_nil]
    rfl
  · rw [Function.update_of_ne hl]
    rfl

theorem Moved.home_eq {c : Created ℓ} {w : World ℕ} (ht : Moved s t i c w) : t.home = s.home := by
  funext j p
  rw [home, home, ht.server_eq]

theorem Moved.mem_queue {c : Created ℓ} {w : World ℕ} (ht : Moved s t i c w)
    (hturns : (s.world c.loop_ i).Turns w) {f : Functor ℕ} (hf : f ∈ t.queue l) :
    f ∈ s.queue l ∨ f.task.IsCallback := by
  obtain ⟨news, hqueue, hnews⟩ := hturns.queue
  rw [queue, ht.functors_eq, ht.loop_eq] at hf
  by_cases hl : l = c.loop_
  · subst hl
    rw [Function.update_self, hqueue, ← List.append_assoc, List.mem_append] at hf
    exact hf.imp_right (hnews f)
  · rw [Function.update_of_ne hl] at hf
    exact .inl hf

/-! ## The invariant -/

/-- The invariant of the server with its loops: every connection is in a phase of its own, and the
call that takes it on is at the home of this phase, and nowhere else. -/
structure Ok (s : Loops ℓ) (phase : ℕ → Phase) (gone : List ℕ) : Prop where
  conns : s.Conns (fun i => (phase i).stage) gone
  placed : Placed s.home phase s.tokens
  tasks : ∀ l, ∀ f ∈ s.queue l, f.task.Strong
  handles : ∀ l i guard callbacks, .handleEvent i guard callbacks ∈ s.stack l →
    phase i ≠ .torn ∧ ∃ c, s.server.created[i]? = some c ∧ c.loop_ = l

/-- The call that takes the connection `i` on has been taken, and what it has done so far has
brought `i` to the stage `p`. -/
structure Taken (s : Loops ℓ) (phase : ℕ → Phase) (gone : List ℕ) (i : ℕ) (p : Stage) : Prop where
  conns : s.Conns (Function.update (fun j => (phase j).stage) i p) gone
  placed : ∃ tokens, Placed s.home phase tokens ∧
    Adds s.tokens tokens (s.home i (phase i)) (i, phase i)
  tasks : ∀ l, ∀ f ∈ s.queue l, f.task.Strong
  handles : ∀ l j guard callbacks, .handleEvent j guard callbacks ∈ s.stack l →
    phase j ≠ .torn ∧ ∃ c, s.server.created[j]? = some c ∧ c.loop_ = l

/-- The calls lie where they were, and no new event is handled but for a connection that is not torn
down, on its own loop. -/
theorem Ok.same (hs : s.Ok phase gone) (hsame : Same s t)
    (htokens : ∀ l, (t.tokens l).Perm (s.tokens l)) (hqueue : ∀ l, ∀ f ∈ t.queue l, f ∈ s.queue l)
    (hhandles : ∀ l i guard callbacks, .handleEvent i guard callbacks ∈ t.stack l →
      phase i ≠ .torn ∧ ∃ c, s.server.created[i]? = some c ∧ c.loop_ = l) : t.Ok phase gone := by
  refine ⟨hs.conns.same hsame, ?_, fun l f hf => hs.tasks l f (hqueue l f hf), ?_⟩
  · rw [hsame.home_eq]
    exact hs.placed.perm htokens
  · rw [hsame.server_eq]
    exact hhandles

theorem Ok.taken (hs : s.Ok phase gone) (hsame : Same s t)
    (htokens : Adds t.tokens s.tokens (s.home i (phase i)) (i, phase i))
    (hqueue : ∀ l, ∀ f ∈ t.queue l, f ∈ s.queue l) (hstack : ∀ l, ∀ a ∈ t.stack l, a ∈ s.stack l) :
    t.Taken phase gone i (phase i).stage := by
  refine ⟨?_, ⟨s.tokens, ?_, ?_⟩, fun l f hf => hs.tasks l f (hqueue l f hf), ?_⟩
  · rw [Function.update_eq_self i fun j => (phase j).stage]
    exact hs.conns.same hsame
  · rw [hsame.home_eq]
    exact hs.placed
  · rw [hsame.home_eq]
    exact htokens
  · intro l j guard callbacks hmem
    rw [hsame.server_eq]
    exact hs.handles l j guard callbacks (hstack l _ hmem)

/-- The activation on top takes its connection on. -/
theorem Ok.take_stack (hs : s.Ok phase gone) {a : Activation} {rest : List Activation}
    (hstack : s.stack l = a :: rest) {p : Phase} (htoken : a.token = some (i, p)) :
    phase i = p ∧ s.home i p = some l ∧ (s.goto l rest).Taken phase gone i p.stage := by
  have hmem : (i, p) ∈ s.tokens l := by
    rw [tokens, hstack, List.filterMap_cons_some htoken]
    exact List.mem_cons_self
  obtain ⟨rfl, hhome⟩ := hs.placed.of_mem hmem
  refine ⟨rfl, hhome, hs.taken (same_goto ..) ?_ (fun _ _ hf => hf) fun l' a' ha' => ?_⟩
  · rw [hhome]
    exact adds_goto hstack htoken
  · by_cases hl : l' = l
    · subst hl
      rw [goto_stack] at ha'
      rw [hstack]
      exact List.mem_cons_of_mem _ ha'
    · rwa [goto_stack_of_ne hl] at ha'

/-- The next functor of the round takes its connection on. -/
theorem Ok.take_functor (hs : s.Ok phase gone) {f : Functor ℕ} {fs : List (Functor ℕ)}
    (hfunctors : s.functors l = f :: fs) {p : Phase} (htoken : f.token = some (i, p)) :
    phase i = p ∧ s.home i p = some l ∧ (s.round l fs).Taken phase gone i p.stage := by
  have hmem : (i, p) ∈ s.tokens l := by
    rw [tokens, queue_of_functors hfunctors, List.filterMap_cons_some htoken]
    exact List.mem_append_right _ List.mem_cons_self
  obtain ⟨rfl, hhome⟩ := hs.placed.of_mem hmem
  refine ⟨rfl, hhome, hs.taken (same_round ..) ?_ (fun _ _ => mem_round_queue hfunctors)
    fun _ _ ha => ha⟩
  rw [hhome]
  exact adds_round hfunctors htoken

/-- A connection that no call takes on. -/
theorem Ok.take_none (hs : s.Ok phase gone) (hhome : s.home i (phase i) = none) :
    s.Taken phase gone i (phase i).stage := by
  refine hs.taken ⟨rfl, rfl, rfl, fun _ => rfl⟩ ?_ (fun _ _ hf => hf) fun _ _ ha => ha
  rw [hhome]
  exact adds_none (fun _ => List.Perm.refl _) _

/-- The call of the phase `p` is laid down at its home. -/
theorem Taken.ok {p : Phase} (hs : s.Taken phase gone i p.stage) (hsame : Same s t)
    (htokens : Adds s.tokens t.tokens (s.home i p) (i, p))
    (hqueue : ∀ l, ∀ f ∈ t.queue l, f ∈ s.queue l ∨ f.task.Strong)
    (hstack : ∀ l, ∀ a ∈ t.stack l, a ∈ s.stack l ∨ ∃ x, a.token = some x)
    (htorn : p = .torn → ∀ l guard callbacks, .handleEvent i guard callbacks ∉ s.stack l) :
    t.Ok (Function.update phase i p) gone := by
  have hstage : (fun j => (Function.update phase i p j).stage) =
      Function.update (fun j => (phase j).stage) i p.stage :=
    funext fun j => Function.apply_update (fun _ => Phase.stage) phase i p j
  obtain ⟨tokens, hplaced, hadds⟩ := hs.placed
  refine ⟨?_, ?_, fun l f hf => (hqueue l f hf).elim (hs.tasks l f) id, ?_⟩
  · rw [hstage]
    exact hs.conns.same hsame
  · rw [hsame.home_eq]
    exact hplaced.move hadds htokens
  · intro l j guard callbacks hmem
    rcases hstack l _ hmem with hmem | ⟨x, hx⟩
    · obtain ⟨hne, hc⟩ := hs.handles l j guard callbacks hmem
      rw [hsame.server_eq]
      refine ⟨?_, hc⟩
      by_cases hj : j = i
      · subst hj
        rw [Function.update_self]
        exact fun hp => htorn hp l guard callbacks hmem
      · rwa [Function.update_of_ne hj]
    · cases hx

theorem Taken.enter {p : Phase} (hs : s.Taken phase gone i p.stage) {a : Activation}
    (htoken : a.token = some (i, p)) (hhome : s.home i p = some l) :
    (s.enter l a).Ok (Function.update phase i p) gone := by
  refine hs.ok (same_goto ..) ?_ (fun _ _ hf => .inl hf) (fun l' a' ha' => ?_) ?_
  · rw [hhome]
    exact adds_enter s l htoken
  · by_cases hl : l' = l
    · subst hl
      rw [Loops.enter, goto_stack] at ha'
      rcases List.mem_cons.1 ha' with rfl | ha'
      · exact .inr ⟨_, htoken⟩
      · exact .inl ha'
    · rw [Loops.enter, goto_stack_of_ne hl] at ha'
      exact .inl ha'
  · rintro rfl
    cases a <;> cases htoken

theorem Taken.queueInLoop {p : Phase} (hs : s.Taken phase gone i p.stage) {f : Functor ℕ}
    (htoken : f.token = some (i, p)) (hhome : s.home i p = some l) :
    (s.queueInLoop l f).Ok (Function.update phase i p) gone := by
  refine hs.ok (same_setPending ..) ?_ (fun l' g hg => ?_) (fun _ _ ha => .inl ha) ?_
  · rw [hhome]
    exact adds_queueInLoop s l htoken
  · by_cases hl : l' = l
    · subst hl
      rw [queueInLoop_queue, List.mem_append, List.mem_singleton] at hg
      refine hg.imp_right ?_
      rintro rfl
      exact Functor.strong_of_token htoken
    · rw [Loops.queueInLoop, setPending_queue_of_ne hl] at hg
      exact .inl hg
  · rintro rfl
    cases hc : s.server.created[i]? with
    | none => simp [home, hc] at hhome
    | some c =>
      rw [home_eq hc] at hhome
      cases hhome

/-- No call takes the connection on from the phase `p`. -/
theorem Taken.settle {p : Phase} (hs : s.Taken phase gone i p.stage) (hhome : s.home i p = none)
    (htorn : p = .torn → ∀ l guard callbacks, .handleEvent i guard callbacks ∉ s.stack l) :
    s.Ok (Function.update phase i p) gone := by
  refine hs.ok ⟨rfl, rfl, rfl, fun _ => rfl⟩ ?_ (fun _ _ hf => .inl hf) (fun _ _ ha => .inl ha) htorn
  rw [hhome]
  exact adds_none (fun _ => List.Perm.refl _) _

/-- A function of the connection that has been taken runs. -/
theorem Taken.moved {p q : Stage} (hs : s.Taken phase gone i p) {c : Created ℓ}
    (hc : s.server.created[i]? = some c) (hne : p ≠ .torn) {w : World ℕ}
    (hturns : (s.world c.loop_ i).Turns w) (ht : Moved s t i c w)
    (hhistory : t.history i = q.history c.loop_) (hstate : q.Allows w.conn.state_)
    (hgone : q.Gone ↔ p.Gone) (htorn : q = .torn → w.conn.channel_.index_ = .kNew) :
    t.Taken phase gone i q := by
  have hconns := hs.conns.moved hc (by rwa [Function.update_self]) hturns ht hhistory hstate
    (by rwa [Function.update_self]) htorn
  rw [Function.update_idem] at hconns
  refine ⟨hconns, ?_, fun l f hf => ?_, ?_⟩
  · rw [ht.home_eq, ht.tokens_eq hturns]
    exact hs.placed
  · exact (ht.mem_queue hturns hf).elim (hs.tasks l f) Task.IsCallback.strong
  · rw [ht.stack_eq, ht.server_eq]
    exact hs.handles

/-- A turn of a connection that stays in its phase. -/
theorem Ok.moved (hs : s.Ok phase gone) {c : Created ℓ} (hc : s.server.created[i]? = some c)
    (hne : phase i ≠ .torn) {w : World ℕ} (hturns : (s.world c.loop_ i).Turns w)
    (ht : Moved s t i c w) (hhistory : t.history i = s.history i)
    (hkeeps : (s.conn i).state_.Keeps w.conn.state_) : t.Ok phase gone := by
  have hpart := hs.conns.part i c hc
  have hstage := Phase.stage_ne_torn.2 hne
  have hconns := hs.conns.moved hc hstage hturns ht (hhistory.trans hpart.history)
    (hpart.state.keeps hkeeps) Iff.rfl fun h => absurd h hstage
  rw [Function.update_eq_self i fun j => (phase j).stage] at hconns
  refine ⟨hconns, ?_, fun l f hf => ?_, ?_⟩
  · rw [ht.home_eq, ht.tokens_eq hturns]
    exact hs.placed
  · exact (ht.mem_queue hturns hf).elim (hs.tasks l f) Task.IsCallback.strong
  · rw [ht.stack_eq, ht.server_eq]
    exact hs.handles

/-! ## The functions that take a connection on -/

theorem Taken.conneectEstableished (hs : s.Taken phase gone i .fresh)
    (hown : ∀ c, s.server.created[i]? = some c → c.loop_ = l)
    (h : s.execNoted l i .conneectEstableished TcpConnection.conneectEstableished = .ok t) :
    t.Ok (Function.update phase i .established) gone := by
  obtain ⟨c, w, hc, hw, hmoved, hhistory⟩ := execNoted_ok h
  have hpart := hs.conns.part i c hc
  rw [Function.update_self] at hpart
  obtain ⟨hturns, hstate⟩ :=
    TcpConnection.conneectEstableished_turns (hpart.sound Stage.noConfusion) hw
  have htaken : t.Taken phase gone i .live := by
    refine hs.moved hc Stage.noConfusion hturns hmoved ?_ (.inl hstate) ?_ fun h => ?_
    · rw [hhistory, hpart.history, ← hown c hc]
      rfl
    · simp [Stage.Gone]
    · exact Stage.noConfusion h
  have hhome : t.home i .established = none := by
    rw [hmoved.home_eq]
    exact home_eq hc _
  exact htaken.settle hhome fun h => Phase.noConfusion h

theorem Taken.conneectDestroyed (hs : s.Taken phase gone i .removed)
    (hown : ∀ c, s.server.created[i]? = some c → c.loop_ = l) (hstack : s.stack l = [])
    (h : s.execNoted l i .conneectDestroyed TcpConnection.conneectDestroyed = .ok t) :
    t.Ok (Function.update phase i .torn) gone := by
  obtain ⟨c, w, hc, hw, hmoved, hhistory⟩ := execNoted_ok h
  have hpart := hs.conns.part i c hc
  rw [Function.update_self] at hpart
  obtain ⟨hturns, hstate, hindex⟩ :=
    TcpConnection.conneectDestroyed_turns (hpart.sound Stage.noConfusion) hpart.state hw
  have htaken : t.Taken phase gone i .torn := by
    refine hs.moved hc Stage.noConfusion hturns hmoved ?_ hstate ?_ fun _ => hindex
    · rw [hhistory, hpart.history, ← hown c hc]
      rfl
    · simp [Stage.Gone]
  have hhome : t.home i .torn = none := by
    rw [hmoved.home_eq]
    exact home_eq hc _
  refine htaken.settle hhome fun _ l' guard callbacks hmem => ?_
  -- the events of the connection are handled on its own loop, which runs a functor
  rw [hmoved.stack_eq] at hmem
  obtain ⟨-, d, hd, rfl⟩ := hs.handles l' i guard callbacks hmem
  rw [hown d hd, hstack] at hmem
  cases hmem

/-- The server is told on its loop. -/
theorem Taken.removeConnection (hs : s.Taken phase gone i .closed) {c : Created ℓ}
    (hc : s.server.created[i]? = some c) {answers : Answers}
    (h : s.runInLoop l s.server.loop_ answers ⟨i, .removeConnectionInLoop⟩ = .ok t) :
    ∃ p, t.Ok (Function.update phase i p) gone := by
  unfold runInLoop at h
  split at h
  next hl =>
    obtain rfl := Except.ok.inj h
    have hhome : s.home i .erasing = some l := (home_eq hc _).trans (congrArg some hl.symm)
    exact ⟨.erasing, Taken.enter (p := .erasing) hs rfl hhome⟩
  next =>
    obtain rfl := Except.ok.inj h
    exact ⟨.removing, Taken.queueInLoop (p := .removing) hs rfl (home_eq hc _)⟩

/-- The server erases the entry. -/
theorem Taken.erase (hs : s.Taken phase gone i .closed) (hhome : s.home i .erasing = some l) :
    ({ s with server := s.server.removeConnectionInLoop i }.enter l (.erased i)).Ok
      (Function.update phase i .erased) (gone ++ [i]) := by
  have hconns := hs.conns.removeConnectionInLoop (Function.update_self ..)
  rw [Function.update_idem] at hconns
  have hcreated : (s.server.removeConnectionInLoop i).created = s.server.created := by
    unfold TcpServer.removeConnectionInLoop
    split <;> rfl
  have hloop : (s.server.removeConnectionInLoop i).loop_ = s.server.loop_ := by
    unfold TcpServer.removeConnectionInLoop
    split <;> rfl
  have hhome' : home { s with server := s.server.removeConnectionInLoop i } = s.home := by
    funext j p
    simp only [home, hcreated, hloop]
  have htaken : Taken { s with server := s.server.removeConnectionInLoop i } phase (gone ++ [i]) i
      .removed := by
    refine ⟨hconns, ?_, hs.tasks, ?_⟩
    · rw [hhome']
      exact hs.placed
    · simp only [hcreated]
      exact hs.handles
  exact Taken.enter (p := .erased) htaken rfl (hhome' ▸ hhome)

/-! ## Steps -/

/-- A functor of the round is called. -/
theorem Ok.next (hs : s.Ok phase gone) (hstack : s.stack l = []) {f : Functor ℕ}
    {fs : List (Functor ℕ)} (hfunctors : s.functors l = f :: fs) {answers : Answers}
    (h : (s.round l fs).call l answers f = .ok t) : ∃ phase', t.Ok phase' gone := by
  obtain ⟨conn, task⟩ := f
  have hmem : ⟨conn, task⟩ ∈ s.queue l := by simp [queue, hfunctors]
  cases task with
  | conneectEstableished =>
    obtain ⟨-, hhome, htaken⟩ := hs.take_functor hfunctors rfl
    exact ⟨_, htaken.conneectEstableished (fun c hc => own_of_home hc hhome rfl) h⟩
  | conneectDestroyed =>
    obtain ⟨-, hhome, htaken⟩ := hs.take_functor hfunctors rfl
    exact ⟨_, htaken.conneectDestroyed (fun c hc => own_of_home hc hhome rfl) hstack h⟩
  | removeConnectionInLoop =>
    obtain ⟨-, hhome, htaken⟩ := hs.take_functor hfunctors rfl
    obtain rfl := Except.ok.inj h
    have hhome : (s.round l fs).home conn .erasing = some l := hhome
    exact ⟨_, Taken.enter (p := .erasing) htaken rfl hhome⟩
  | sendInLoop | shutdownInLoop => exact absurd (hs.tasks l _ hmem) id
  | writeCompleteCallback | highWaterMarkCallback =>
    obtain rfl := Except.ok.inj h
    refine ⟨phase, hs.same (same_round ..) (fun l' => ?_) (fun _ _ => mem_round_queue hfunctors)
      hs.handles⟩
    by_cases hl : l' = l
    · subst hl
      rw [tokens, tokens, queue_of_functors hfunctors]
      exact List.Perm.refl _
    · rw [tokens, tokens, round_queue_of_ne hl]
      exact List.Perm.refl _

/-- Activations that take no connection on come and go. -/
theorem Ok.goto (hs : s.Ok phase gone) {activations : List Activation}
    (htokens : activations.filterMap Activation.token = (s.stack l).filterMap Activation.token)
    (hhandles : ∀ i guard callbacks, .handleEvent i guard callbacks ∈ activations →
      phase i ≠ .torn ∧ ∃ c, s.server.created[i]? = some c ∧ c.loop_ = l) :
    (s.goto l activations).Ok phase gone := by
  refine hs.same (same_goto ..) (fun l' => ?_) (fun _ _ hf => hf) fun l' j guard callbacks hmem => ?_
  · by_cases hl : l' = l
    · subst hl
      rw [tokens, tokens, goto_stack, htokens]
      exact List.Perm.refl _
    · rw [tokens, tokens, goto_stack_of_ne hl]
      exact List.Perm.refl _
  · by_cases hl : l' = l
    · subst hl
      rw [goto_stack] at hmem
      exact hhandles j guard callbacks hmem
    · rw [goto_stack_of_ne hl] at hmem
      exact hs.handles l' j guard callbacks hmem

/-- A callback of the channel runs, on the loop of its connection. -/
theorem Ok.handle (hs : s.Ok phase gone) (hne : phase i ≠ .torn) {c : Created ℓ}
    (hc : s.server.created[i]? = some c) (hl : c.loop_ = l) {e : Event}
    (h : s.handle l i e = .ok t) : ∃ phase', t.Ok phase' gone := by
  obtain ⟨⟨u, effects⟩, hu, h⟩ := bind_eq_ok.1 h
  obtain rfl := Except.ok.inj h
  obtain ⟨d, w, hd, hw, rfl, hmoved, hlog⟩ := exec_ok hu
  obtain rfl := Option.some.inj (hc.symm.trans hd)
  have hpart := hs.conns.part i c hc
  obtain ⟨hturns, ⟨hinside, hkeeps⟩ | ⟨hclose, hstate, hlive⟩⟩ :=
    Event.turns (hpart.sound (Phase.stage_ne_torn.2 hne)) rfl hw
  · refine ⟨phase, ?_⟩
    simp only [if_neg hinside]
    refine hs.moved hc hne hturns hmoved ?_ hkeeps
    rw [history, hlog, history]
  · -- it closes the connection, which was established
    simp only [if_pos hclose]
    have hstage : (phase i).stage = .live := hpart.state.live hlive
    have hphase := Phase.of_stage_live hstage
    have htaken : s.Taken phase gone i .live := by
      have hnone : s.home i (phase i) = none := by
        rw [hphase, home_eq hc]
        rfl
      rw [← hstage]
      exact hs.take_none hnone
    have hclosed : (u.note l i .handleClose).Taken phase gone i .closed := by
      refine htaken.moved hc Stage.noConfusion hturns (hmoved.note l _) ?_ hstate ?_ fun h => ?_
      · rw [history_note, if_pos rfl, history, hlog, ← history, hpart.history, hstage, ← hl]
        rfl
      · simp [Stage.Gone]
      · exact Stage.noConfusion h
    have hhome : (u.note l i .handleClose).home i .closing = some l := by
      rw [(hmoved.note l .handleClose).home_eq]
      exact (home_eq hc _).trans (congrArg some hl)
    exact ⟨_, Taken.enter (p := .closing) hclosed rfl hhome⟩

/-- `handleEvent` begins, for a channel that the poller of the loop holds. -/
theorem Ok.dispatch (hs : s.Ok phase gone) (hpoller : s.InPoller l i) (revents : Mask) :
    (s.dispatch l i revents).Ok phase gone := by
  obtain ⟨c, hc, hl, hstage⟩ := hs.conns.of_mentions hpoller
  have hne := Phase.stage_ne_torn.1 hstage
  have hsound := (hs.conns.part i c hc).sound hstage
  let conn := { s.conn i with channel_ := (s.conn i).channel_.set_revents revents }
  have hmoved : Moved s { s with conn := Function.update s.conn i conn } i c
      ⟨i, conn, s.loop c.loop_, []⟩ :=
    ⟨rfl, rfl, (Function.update_eq_self _ _).symm, rfl, rfl, fun _ _ => rfl⟩
  have hturns : (s.world c.loop_ i).Turns ⟨i, conn, s.loop c.loop_, []⟩ :=
    ⟨rfl, ⟨hsound.valid, hsound.agrees⟩, rfl, Frame.refl _ _, [], by simp [Loops.world]⟩
  have hok := hs.moved hc hne hturns hmoved rfl (.inl rfl)
  refine hok.goto rfl fun j guard callbacks hmem => ?_
  rcases List.mem_cons.1 hmem with heq | hmem
  · obtain ⟨rfl, -, -⟩ := Activation.handleEvent.inj heq
    exact ⟨hne, c, hc, hl⟩
  · exact hs.handles l j guard callbacks hmem

/-- The thread of the loop goes on. -/
theorem Ok.proceed (hs : s.Ok phase gone) {answers : Answers} (h : s.proceed l answers = .ok t) :
    ∃ phase' gone', t.Ok phase' gone' := by
  unfold Loops.proceed at h
  split at h
  next =>
    obtain rfl := Except.ok.inj h
    exact ⟨phase, gone, hs⟩
  next conn rest hstack =>
    obtain ⟨-, hhome, htaken⟩ := hs.take_stack hstack rfl
    obtain ⟨ioLoop, hloop, h⟩ := bind_eq_ok.1 h
    obtain ⟨c, hc, rfl⟩ := getLoop_ok hloop
    unfold runInLoop at h
    split at h
    next hl =>
      refine ⟨_, gone, htaken.conneectEstableished (fun d hd => ?_) h⟩
      obtain rfl := Option.some.inj (hc.symm.trans hd)
      exact hl.symm
    next =>
      obtain rfl := Except.ok.inj h
      exact ⟨_, gone, Taken.queueInLoop (p := .establishing) htaken rfl (home_eq hc _)⟩
  next conn guard rest hstack =>
    obtain rfl := Except.ok.inj h
    refine ⟨phase, gone, hs.goto ?_ fun j guard callbacks hmem => ?_⟩
    · rw [hstack]
      rfl
    · refine hs.handles l j guard callbacks ?_
      rw [hstack]
      exact List.mem_cons_of_mem _ hmem
  next conn guard cb callbacks rest hstack =>
    have htop : .handleEvent conn guard (cb :: callbacks) ∈ s.stack l := by
      rw [hstack]
      exact List.mem_cons_self
    obtain ⟨hne, c, hc, hl⟩ := hs.handles l conn guard _ htop
    have hok : (s.goto l (.handleEvent conn guard callbacks :: rest)).Ok phase gone := by
      refine hs.goto ?_ fun j guard' callbacks' hmem => ?_
      · rw [hstack]
        rfl
      · rcases List.mem_cons.1 hmem with heq | hmem
        · obtain ⟨rfl, -, -⟩ := Activation.handleEvent.inj heq
          exact ⟨hne, c, hc, hl⟩
        · refine hs.handles l j guard' callbacks' ?_
          rw [hstack]
          exact List.mem_cons_of_mem _ hmem
    obtain ⟨phase', hok'⟩ := hok.handle hne hc hl h
    exact ⟨phase', gone, hok'⟩
  next conn rest hstack =>
    obtain ⟨hphase, hhome, htaken⟩ := hs.take_stack hstack rfl
    obtain ⟨c, hc⟩ := hs.conns.exists_created (i := conn) (by rw [hphase]; exact Stage.noConfusion)
    obtain ⟨p, hok⟩ := htaken.removeConnection hc h
    exact ⟨_, gone, hok⟩
  next conn rest hstack =>
    obtain ⟨hphase, hhome, htaken⟩ := hs.take_stack hstack rfl
    obtain rfl := Except.ok.inj h
    exact ⟨_, _, htaken.erase hhome⟩
  next conn rest hstack =>
    obtain ⟨-, hhome, htaken⟩ := hs.take_stack hstack rfl
    obtain ⟨ioLoop, hloop, h⟩ := bind_eq_ok.1 h
    obtain rfl := Except.ok.inj h
    obtain ⟨c, hc, rfl⟩ := getLoop_ok hloop
    exact ⟨_, gone, Taken.queueInLoop (p := .destroying) htaken rfl (home_eq hc _)⟩

/-- **A strong reference** to every connection that is not torn down: its entry of `connections_`,
or the functor that comes after the erasure. -/
theorem Ok.held (hs : s.Ok phase gone) {c : Created ℓ} (hc : s.server.created[i]? = some c)
    (hne : phase i ≠ .torn) : s.Held i := by
  by_cases hgone : i ∈ gone
  · have hremoved : (phase i).stage = .removed :=
      ((hs.conns.mem_gone i).1 hgone).resolve_right (Phase.stage_ne_torn.2 hne)
    rcases Phase.of_stage_removed hremoved with herased | hdestroying
    · have hmem : (i, phase i) ∈ s.tokens s.server.loop_ :=
        hs.placed.mem (by rw [herased, home_eq hc]; rfl)
      obtain ⟨a, ha, htoken⟩ := (mem_tokens (herased ▸ hmem)).resolve_right (by
        rintro ⟨f, -, hf⟩
        exact Functor.token_ne_erased hf)
      exact .inr ⟨_, List.mem_cons_self, .inr ⟨a, ha, Activation.holds_of_erased htoken⟩⟩
    · have hmem : (i, phase i) ∈ s.tokens c.loop_ :=
        hs.placed.mem (by rw [hdestroying, home_eq hc]; rfl)
      obtain ⟨f, hf, htoken⟩ := (mem_tokens (hdestroying ▸ hmem)).resolve_left (by
        rintro ⟨a, -, ha⟩
        exact Activation.token_ne_destroying ha)
      exact .inr ⟨_, hs.conns.mem_all i c hc, .inl ⟨f, hf, Functor.conn_of_token htoken,
        Functor.strong_of_token htoken⟩⟩
  · exact .inl ⟨c, hc, (hs.conns.registered.entries _ _).2 ⟨⟨c, hc, rfl⟩, hgone⟩⟩

theorem Ok.accept (hs : s.Ok phase gone) {sockFd : ℕ} {localAddr peerAddr : InetAddress}
    {complete : Bool} (hfree : ∀ j < s.server.created.length,
      (s.conn j).channel_.fd_ = sockFd → ¬s.Held j)
    (h : s.accept sockFd localAddr peerAddr complete = .ok t) : ∃ phase', t.Ok phase' gone := by
  obtain ⟨server, hserver, h⟩ := bind_eq_ok.1 h
  obtain rfl := Except.ok.inj h
  have hfree' (j : ℕ) (c : Created ℓ) (hc : s.server.created[j]? = some c)
      (hne : (phase j).stage ≠ .torn) : (s.conn j).channel_.fd_ ≠ sockFd := fun hfd =>
    hfree j (List.getElem?_eq_some_iff.1 hc).1 hfd (hs.held hc (Phase.stage_ne_torn.1 hne))
  have hconns := hs.conns.newConnection hserver hfree' complete
  obtain ⟨ioLoop, pool, -, -, hnew⟩ := TcpServer.newConnection_ok hserver
  have hloop : server.loop_ = s.server.loop_ := by rw [hnew]
  have hcreated : ∃ c, server.created = s.server.created ++ [c] := ⟨_, by rw [hnew]⟩
  obtain ⟨c, hcreated⟩ := hcreated
  have hkept (j : ℕ) (hj : j < s.server.created.length) :
      server.created[j]? = s.server.created[j]? := by
    rw [hcreated, List.getElem?_append_left hj]
  have hself : server.created[s.server.created.length]? = some c := by
    rw [hcreated, List.getElem?_concat_length]
  have hunborn (j : ℕ) (hj : s.server.created.length ≤ j) : phase j = .unborn :=
    Phase.of_stage_unborn (hs.conns.unborn j (List.getElem?_eq_none hj)).1
  have htaken : Taken { s with
      server := server
      conn := Function.update s.conn s.server.created.length
        ((TcpConnection.construct sockFd).setWriteCompleteCallback complete) }
      phase gone s.server.created.length .fresh := by
    refine ⟨hconns, ⟨s.tokens, hs.placed.congr fun j => ?_, ?_⟩, hs.tasks, ?_⟩
    · by_cases hj : j < s.server.created.length
      · simp only [home, hkept j hj, hloop]
      · rw [hunborn j (by omega), home_unborn, home_unborn]
    · rw [hunborn _ (Nat.le_refl _), home_unborn]
      exact adds_none (fun _ => List.Perm.refl _) _
    · intro l j guard callbacks hmem
      obtain ⟨hne, d, hd, hl⟩ := hs.handles l j guard callbacks hmem
      exact ⟨hne, d, (hkept j (List.getElem?_eq_some_iff.1 hd).1).trans hd, hl⟩
  refine ⟨_, Taken.enter (p := .accepted) htaken rfl ?_⟩
  exact (home_eq hself _).trans (congrArg some hloop)

theorem Ok.swap (hs : s.Ok phase gone) (hfunctors : s.functors l = []) :
    (s.swap l).Ok phase gone := by
  have hsame : Same s (s.swap l) := by
    obtain ⟨hserver, hconn, hlog, hpoller⟩ := same_setPending (s.round l _) l []
    exact ⟨hserver, hconn, hlog, hpoller⟩
  have hqueue (l' : ℓ) : (s.swap l).queue l' = s.queue l' := by
    by_cases hl : l' = l
    · subst hl
      rw [Loops.swap, setPending_queue, queue, hfunctors, List.append_nil, List.nil_append]
      exact Function.update_self ..
    · rw [Loops.swap, setPending_queue_of_ne hl, round_queue_of_ne hl]
  refine hs.same hsame (fun l' => ?_) (fun l' f hf => hqueue l' ▸ hf) hs.handles
  rw [tokens, tokens, hqueue]
  exact List.Perm.refl _

/-- The user calls a connection. -/
theorem Ok.user (hs : s.Ok phase gone) {call : UserCall} {effects : List Effect}
    (h : s.exec i call.exec = .ok (t, effects)) : t.Ok phase gone := by
  obtain ⟨c, w, hc, hw, -, hmoved, hlog⟩ := exec_ok h
  have hpart := hs.conns.part i c hc
  have hhistory : t.history i = s.history i := by rw [history, hlog, history]
  by_cases htorn : phase i = .torn
  · have hstage : (phase i).stage = .torn := congrArg Phase.stage htorn
    rw [hstage] at hpart
    obtain ⟨hloop, hstate, hchannel⟩ := UserCall.of_disconnected (w := s.world c.loop_ i) hpart.state hw
    have hloops : t.loop = s.loop := by
      rw [hmoved.loop_eq, hloop]
      exact Function.update_eq_self ..
    have hqueue (l : ℓ) : t.queue l = s.queue l := by
      rw [queue, hmoved.functors_eq, hloops, queue]
    have htokens : t.tokens = s.tokens := by
      funext l
      rw [tokens, tokens, hmoved.stack_eq, hqueue]
    refine ⟨hs.conns.settled hstage hmoved hhistory hloop hstate hchannel, ?_, fun l => ?_, ?_⟩
    · rw [hmoved.home_eq, htokens]
      exact hs.placed
    · rw [hqueue]
      exact hs.tasks l
    · rw [hmoved.stack_eq, hmoved.server_eq]
      exact hs.handles
  · obtain ⟨hturns, hkeeps⟩ := UserCall.turns (hpart.sound (Phase.stage_ne_torn.2 htorn)) hw
    exact hs.moved hc htorn hturns hmoved hhistory hkeeps

/-- **Every step keeps the invariant.** -/
theorem Ok.step (hs : s.Ok phase gone) {a : Action ℓ} (h : s.step a = .ok t) :
    ∃ phase' gone', t.Ok phase' gone' := by
  unfold Loops.step at h
  split at h
  next henabled =>
    cases a with
    | accept sockFd localAddr peerAddr complete =>
      obtain ⟨phase', hok⟩ := hs.accept henabled.2 h
      exact ⟨phase', gone, hok⟩
    | dispatch l conn revents =>
      obtain rfl := Except.ok.inj h
      exact ⟨phase, gone, hs.dispatch henabled.2 revents⟩
    | proceed l answers => exact hs.proceed h
    | swap l =>
      obtain rfl := Except.ok.inj h
      exact ⟨phase, gone, hs.swap henabled.2⟩
    | next l answers =>
      simp only [perform] at h
      split at h
      next =>
        obtain rfl := Except.ok.inj h
        exact ⟨phase, gone, hs⟩
      next f fs hfunctors =>
        obtain ⟨phase', hok⟩ := hs.next henabled hfunctors h
        exact ⟨phase', gone, hok⟩
    | user conn call =>
      obtain ⟨⟨u, effects⟩, hu, h⟩ := bind_eq_ok.1 h
      obtain rfl := Except.ok.inj h
      exact ⟨phase, gone, hs.user hu⟩
  next =>
    obtain rfl := Except.ok.inj h
    exact ⟨phase, gone, hs⟩

/-! ## Runs -/

/-- The calls of `conneectEstableished` that are still to be made for the connection `i` of the
loop `l`. -/
def establishing (s : Loops ℓ) (l : ℓ) (i : ℕ) : ℕ :=
  (s.stack s.server.loop_).count (.newConnection i) +
    (s.queue l).count ⟨i, .conneectEstableished⟩

/-- `handleClose` of the connection has run. -/
def Closed (s : Loops ℓ) (i : ℕ) : Prop := ∃ l, (.handleClose, l) ∈ s.history i

/-- All queues are empty, and no thread is inside of a step. -/
def Quiet (s : Loops ℓ) : Prop := ∀ l, s.queue l = [] ∧ s.stack l = []

/-- `conneectEstableished` has run once, or is to run once. -/
theorem Ok.establishes (hs : s.Ok phase gone) {c : Created ℓ}
    (hc : s.server.created[i]? = some c) :
    (s.history i).count (.conneectEstableished, c.loop_) + s.establishing c.loop_ i = 1 := by
  have hpart := hs.conns.part i c hc
  have haccepted := hs.placed s.server.loop_ i .accepted
  have hestablishing := hs.placed c.loop_ i .establishing
  rw [count_accepted, home_eq hc] at haccepted
  rw [count_establishing, home_eq hc] at hestablishing
  rw [establishing, haccepted, hestablishing, hpart.history]
  cases hphase : phase i with
  | unborn =>
    have hstate := hpart.state
    rw [hphase] at hstate
    exact absurd hstate id
  | _ => simp [Phase.stage, Stage.history, Phase.home]

/-- When nothing is to be done, the connections that have not closed are those of `connections_`. -/
theorem Ok.connections (hs : s.Ok phase gone) (hquiet : s.Quiet) (name : List Char) (i : ℕ) :
    s.server.connections_ name = some i ↔ s.server.Names name i ∧ ¬s.Closed i := by
  rw [hs.conns.registered.entries]
  refine and_congr_right fun ⟨c, hc, _⟩ => ?_
  have hpart := hs.conns.part i c hc
  rw [hs.conns.mem_gone, Closed, hpart.history]
  have hsettled (l : ℓ) (hhome : (phase i).home s.server.loop_ c.loop_ = some l) : False := by
    rw [← home_eq hc] at hhome
    have hmem := hs.placed.mem hhome
    rw [tokens, (hquiet l).1, (hquiet l).2] at hmem
    cases hmem
  cases hphase : phase i with
  | unborn =>
    have hstate := hpart.state
    rw [hphase] at hstate
    exact absurd hstate id
  | established | torn => simp [Phase.stage, Stage.history, Stage.Gone]
  | _ =>
    rw [hphase] at hsettled
    exact absurd (hsettled _ rfl) id

/-- A server before its first step. -/
theorem start_ok {loop : ℓ} {loops : List ℓ} {listenAddr : InetAddress} {nameArg : List Char}
    {server : TcpServer ℓ} (h : TcpServer.construct loop listenAddr nameArg = .ok server) :
    (start (server.start loops)).Ok (fun _ => .unborn) [] := by
  obtain ⟨server', hserver', hregistered, hnone⟩ :=
    TcpServer.registered_construct loop loops listenAddr nameArg
  obtain rfl := Except.ok.inj (hserver'.symm.trans h)
  have hbase : server'.threadPool_.baseLoop_ = server'.loop_ := by
    obtain ⟨text, -, h⟩ := bind_eq_ok.1 h
    obtain rfl := Except.ok.inj h
    rfl
  refine ⟨start_conns hregistered hbase hnone, fun l i p => ?_, fun l f hf => ?_,
    fun l i guard callbacks hmem => ?_⟩
  · rw [if_neg]
    · rfl
    · rintro ⟨rfl, hhome⟩
      rw [home_unborn] at hhome
      cases hhome
  · cases hf
  · cases hmem

/-- **The teardown protocol**: a server accepts connections and spreads them over its own loop and
any number of others, whose threads interleave. The functions of a connection that have run are
`conneectEstableished`, `handleClose` and `conneectDestroyed`, in this order, each at most once and
on the loop of the connection; `conneectEstableished` has run or its call waits, once; while the
index of its channel is not `kNew`, or some poller holds it, there is a strong reference to it. When
nothing waits and no thread is inside of a step, `connections_` holds the connections that have been
created and not closed. -/
theorem teardown {loop : ℓ} {loops : List ℓ} {listenAddr : InetAddress} {nameArg : List Char}
    {server : TcpServer ℓ} {actions : List (Action ℓ)} {s : Loops ℓ}
    (hserver : TcpServer.construct loop listenAddr nameArg = .ok server)
    (h : run step (start (server.start loops)) actions = .ok s) :
    (∀ i c, s.server.created[i]? = some c →
      s.history i <+: [(.conneectEstableished, c.loop_), (.handleClose, c.loop_),
        (.conneectDestroyed, c.loop_)] ∧
      (s.history i).count (.conneectEstableished, c.loop_) + s.establishing c.loop_ i = 1 ∧
      ((s.conn i).channel_.index_ ≠ .kNew → s.Held i)) ∧
    (∀ l fd i, ((s.loop l).poller.entry fd).Mentions i → s.Held i) ∧
    (s.Quiet → ∀ name i, s.server.connections_ name = some i ↔
      s.server.Names name i ∧ ¬s.Closed i) := by
  have hok : ∃ phase gone, s.Ok phase gone := by
    refine invariant (I := fun s => ∃ phase gone, s.Ok phase gone) ?_ ⟨_, _, start_ok hserver⟩ h
    rintro s a t ⟨phase, gone, hs⟩ ht
    exact hs.step ht
  obtain ⟨phase, gone, hok⟩ := hok
  refine ⟨fun i c hc => ?_, fun l fd i hmentions => ?_, hok.connections⟩
  · have hpart := hok.conns.part i c hc
    refine ⟨?_, hok.establishes hc, fun hindex => hok.held hc (Phase.stage_ne_torn.1 fun htorn => ?_)⟩
    · rw [hpart.history]
      exact Stage.history_prefix c.loop_ (phase i).stage
    · exact hindex (hpart.index htorn)
  · obtain ⟨c, hc, -, hstage⟩ := hok.conns.of_mentions hmentions
    exact hok.held hc (Phase.stage_ne_torn.1 hstage)

/-- Nothing to read, and the kernel takes everything. -/
def answers : Answers where
  recv _ := .failed EWOULDBLOCK
  extraBuffer := []
  onMessage := id
  write := TcpConnection.takesAll
  text := ⟨[], by decide⟩

/-- A connection is accepted on the loop `0`, served and closed on the loop `1`, and torn down. -/
def lifetime : List (Action ℕ) :=
  [.accept 7 ⟨(127, 0, 0, 1), 16415⟩ ⟨(10, 0, 0, 2), 1⟩ false, .proceed 0 answers, .swap 1,
    .next 1 answers, .user 0 .shutdown, .dispatch 1 0 EPOLLHUP, .proceed 1 answers,
    .proceed 1 answers, .proceed 1 answers, .swap 0, .next 0 answers, .proceed 0 answers,
    .proceed 0 answers, .swap 1, .next 1 answers]

theorem teardown_lifetime : ∃ (server : TcpServer ℕ) (s : Loops ℕ),
    TcpServer.construct 0 ⟨(127, 0, 0, 1), 16415⟩ ['s'] = .ok server ∧
    run step (start (server.start [1])) lifetime = .ok s ∧
    s.history 0 = [(.conneectEstableished, 1), (.handleClose, 1), (.conneectDestroyed, 1)] ∧
    (∀ i c, s.server.created[i]? = some c →
      s.history i <+: [(.conneectEstableished, c.loop_), (.handleClose, c.loop_),
        (.conneectDestroyed, c.loop_)] ∧
      (s.history i).count (.conneectEstableished, c.loop_) + s.establishing c.loop_ i = 1 ∧
      ((s.conn i).channel_.index_ ≠ .kNew → s.Held i)) ∧
    (∀ l fd i, ((s.loop l).poller.entry fd).Mentions i → s.Held i) ∧
    (s.Quiet → ∀ name i, s.server.connections_ name = some i ↔
      s.server.Names name i ∧ ¬s.Closed i) := by
  have hrun : (TcpServer.construct 0 ⟨(127, 0, 0, 1), 16415⟩ ['s'] >>= fun server =>
      run step (start (server.start [1])) lifetime).map (fun s => s.history 0) =
        .ok [(.conneectEstableished, 1), (.handleClose, 1), (.conneectDestroyed, 1)] := by
    decide +kernel
  obtain ⟨s, hs, hhistory⟩ := exists_of_map hrun
  obtain ⟨server, hserver, hs⟩ := bind_eq_ok.1 hs
  exact ⟨server, s, hserver, hs, hhistory, teardown hserver hs⟩

end Loops

end Muduo
