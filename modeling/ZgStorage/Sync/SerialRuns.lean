import ZgStorage.Sync.Serial

/-!
# Runs of the serial sync controller

What holds along every run of calls to a `SerialSyncController`, as the
sync service makes them (`runEvents`):

* `completed_stores_shard_chunks`: a controller that reaches `Completed`
  from `new` has stored every chunk of its goal in the node's shard, with the
  node's shard configuration valid and fixed along the run. The invariant
  (`Progress`) is that the chunks before `next_chunk` in the shard are
  stored, that a `Downloading` state waits for the chunks from `next_chunk`
  on, and that `Completed` is only set past the goal's end; a response
  moves `next_chunk` to the next segment of the shard, and the chunks it
  skips are outside the shard (`covered_nextChunk`).
* `pastEnd_never_completes`: a file sync whose `next_chunk` is past the end
  of its goal, but that is not `Completed` (where a failed finalization
  leaves it), never completes and never asks the store again, along every
  run in which a reset names no range: the request it sends is empty, and
  no response to it passes the range check of `on_response`.

Every call is one of three kinds (`Event.run_cases`): a `QuietStep`, a
`reset`, or a response that passed the checks of `on_response`.
-/

namespace ZgStorage

namespace Sync

variable {P : Type}

/-- Whether an effect stored chunk `i`: a `put_chunks_with_tx_hash` over it
that the store answered `Ok(true)`. -/
def Effect.stores (e : Effect P) (i : Nat) : Bool :=
  match e with
  | .putChunks indexStart indexEnd (.ok true) => decide (indexStart ≤ i ∧ i < indexEnd)
  | _ => false

theorem Effect.stores_eq_false {e : Effect P} (h : e.toStore = false) (i : Nat) : e.stores i = false := by
  cases e
  case putChunks => exact absurd h (by decide : ¬ true = false)
  all_goals rfl

/-- Whether some effect of a run stored chunk `i`. -/
def storedChunk (effs : List (Effect P)) (i : Nat) : Bool := effs.any (·.stores i)

theorem storedChunk_append {effs : List (Effect P)} {i : Nat} (h : storedChunk effs i = true)
    (new : List (Effect P)) : storedChunk (effs ++ new) i = true := by
  rw [storedChunk, List.any_append, Bool.or_eq_true]
  exact .inl h

theorem storedChunk_of_mem {effs : List (Effect P)} {indexStart indexEnd i : Nat}
    (he : .putChunks indexStart indexEnd (.ok true) ∈ effs) (h₁ : indexStart ≤ i) (h₂ : i < indexEnd) :
    storedChunk effs i = true :=
  List.any_eq_true.mpr ⟨_, he, decide_eq_true ⟨h₁, h₂⟩⟩

/-- Whether chunk `i` of the file that starts at `txStart` in the flow is in
the shard of `cfg`, its segment counted as `on_response` counts it for
`next_segment_index`. -/
def inShard (cfg : ShardConfig) (txStart i : Nat) : Bool :=
  cfg.inRange (sectorToSegment txStart + sectorToSegment i)

/-- The chunks a response skips, from a segment past its first chunk up to
the chunk that `on_response` moves `next_chunk` to, are outside the shard. -/
theorem inShard_eq_false_of_lt_nextChunk {cfg : ShardConfig} (hv : cfg.validate = .ok ()) {txStart fromChunk i : Nat}
    (h₁ : fromChunk + poraChunkSize ≤ i)
    (h₂ : i < segmentToSector (cfg.nextSegmentIndex (sectorToSegment fromChunk) (sectorToSegment txStart))) :
    inShard cfg txStart i = false := by
  obtain ⟨-, -, hgap⟩ := ShardConfig.nextSegmentIndex_spec hv (sectorToSegment fromChunk) (sectorToSegment txStart)
  have hpos : 0 < poraChunkSize := by decide
  refine hgap (sectorToSegment i) ?_ ?_
  · -- a whole segment past `fromChunk` is a later segment
    calc sectorToSegment fromChunk < sectorToSegment fromChunk + 1 := Nat.lt_succ_self _
      _ = (fromChunk + poraChunkSize) / poraChunkSize := (Nat.add_div_right fromChunk hpos).symm
      _ ≤ sectorToSegment i := Nat.div_le_div_right h₁
  · exact (Nat.div_lt_iff_lt_mul hpos).mpr h₂

/-! ### The calls of a run -/

variable [DecidableEq P]

section Calls

variable {env : Env P} {c c' : SerialSyncController P} {new : List (Effect P)}

namespace SerialSyncController

theorem QuietStep.of_fields (hs : SameTask c c') (hst : c'.state = c.state ∨ TurnState c c'.state) :
    QuietStep c c' [] :=
  ⟨hs, hst, fun _ h => nomatch h⟩

theorem toStore_handleOnResponseMismatch (c : SerialSyncController P) (fromPeerId : P) :
    ∀ e ∈ (c.handleOnResponseMismatch fromPeerId).2, e.toStore = false := by
  unfold handleOnResponseMismatch
  split
  · split
    · simp
    · simp [Effect.toStore]
  · simp [Effect.toStore]

theorem quietStep_onPeerFound (env : Env P) (c : SerialSyncController P) (peerId : P) :
    QuietStep c (c.onPeerFound env peerId).2 [] := by
  unfold onPeerFound
  split
  · exact .of_fields ⟨rfl, rfl, rfl, rfl, rfl⟩ (.inl rfl)
  · exact .refl c

theorem quietStep_onDialFailed (env : Env P) (c : SerialSyncController P) (peerId : P) (connectionLimit : Bool) :
    QuietStep c (c.onDialFailed env peerId connectionLimit) [] := by
  unfold onDialFailed
  dsimp only
  split
  · split
    · exact .of_fields ⟨rfl, rfl, rfl, rfl, rfl⟩ (.inr trivial)
    · exact .of_fields ⟨rfl, rfl, rfl, rfl, rfl⟩ (.inl rfl)
  · split
    · exact .of_fields ⟨rfl, rfl, rfl, rfl, rfl⟩ (.inr trivial)
    · exact .of_fields ⟨rfl, rfl, rfl, rfl, rfl⟩ (.inl rfl)

theorem quietStep_onRequestFailed (env : Env P) (c : SerialSyncController P) (peerId : P) :
    QuietStep c (c.onRequestFailed env peerId).1 (c.onRequestFailed env peerId).2 := by
  unfold onRequestFailed
  dsimp only
  split
  · exact ⟨.refl c, .inl rfl, toStore_handleOnResponseMismatch c peerId⟩
  · exact quietStep_handleResponseFailure env c peerId "RPC Error"

/-- What `on_response` can do: a `QuietStep` (a response from a peer it is
not downloading from, or of a bad length or range), or, for a response of
whole chunks over exactly the range of `Downloading`, its validation: on
`Ok(true)` the response is stored, and otherwise the task stays and the
state moves to a `TurnState`. -/
theorem onResponse_cases (env : Env P) (c : SerialSyncController P) (fromPeerId : P) (response : Response) :
    QuietStep c (c.onResponse env fromPeerId response).1 (c.onResponse env fromPeerId response).2 ∨
      ∃ peerId since, c.state = .downloading peerId response.startIndex
          (response.startIndex + response.dataLen / chunkSize) since ∧ 0 < response.dataLen / chunkSize ∧
        ((response.validation = .ok true ∧
            c.onResponse env fromPeerId response = c.storeResponse env response.startIndex response
              (.validateRangeProof response.startIndex (response.startIndex + response.dataLen / chunkSize)
                (.ok true))) ∨
          SameTask c (c.onResponse env fromPeerId response).1 ∧
            TurnState c (c.onResponse env fromPeerId response).1.state) := by
  unfold onResponse
  dsimp only
  split
  · exact .inl ⟨.refl c, .inl rfl, toStore_handleOnResponseMismatch c fromPeerId⟩
  · split
    · rename_i peerId fromChunk toChunk since hst
      split
      · exact .inl ⟨⟨rfl, rfl, rfl, rfl, rfl⟩, .inr trivial, by simp [banPeer, Effect.toStore]⟩
      · split
        · exact .inl ⟨.refl c, .inl rfl, by simp [Effect.toStore]⟩
        · rename_i hlen hrange
          -- the checks passed: the response is of whole chunks, over `[fromChunk, toChunk)`
          have hk : 0 < response.dataLen / chunkSize :=
            Nat.div_pos (Nat.le_of_dvd (by omega) (Nat.dvd_of_mod_eq_zero (by omega))) (by decide)
          obtain ⟨rfl, rfl⟩ : response.startIndex = fromChunk ∧
              response.startIndex + response.dataLen / chunkSize = toChunk := by
            simpa only [not_or, ne_eq, Decidable.not_not] using hrange
          refine .inr ⟨peerId, since, hst, hk, ?_⟩
          split
          · rename_i hval
            exact .inl ⟨hval, by rw [hval]⟩
          · exact .inr ⟨⟨rfl, rfl, rfl, rfl, rfl⟩, trivial⟩
          · exact .inr ⟨⟨rfl, rfl, rfl, rfl, rfl⟩, trivial⟩
    · exact .inl (.refl c)

end SerialSyncController

open SerialSyncController

theorem FileSyncGoal.new_eq_ok {numChunks indexStart indexEnd : Nat} {allChunks : Bool} {goal : FileSyncGoal}
    (h : FileSyncGoal.new numChunks indexStart indexEnd allChunks = .ok goal) :
    goal = ⟨numChunks, indexStart, indexEnd, allChunks⟩ := by
  unfold FileSyncGoal.new at h
  split at h
  · exact (Except.ok.inj h).symm
  · nomatch h

/-- What `reset` does: the state is `Idle`, the effects are the peers'
`transition`, and either the task is kept (no range, a file sync: the break
point) or `next_chunk` is set to the start of the new goal. -/
theorem SerialSyncController.reset_spec {maybeRange : Option (Nat × Nat)} {now : Nat}
    (h : c.reset maybeRange now = .ok (c', new)) :
    c'.state = .idle ∧ c'.txStartChunkInFlow = c.txStartChunkInFlow ∧ (∀ e ∈ new, e.toStore = false) ∧
      if maybeRange = none ∧ c.goal.allChunks = true then SameTask c c' else c'.nextChunk = c'.goal.indexStart := by
  -- the controller before the peers' `transition`: what the match on the range gives
  have hfinish : ∀ d : SerialSyncController P,
      (pure ({ d with failures := 0, state := .idle, peers := (d.peers.transition now).1 },
        (d.peers.transition now).2) : Except Error _) = .ok (c', new) →
      c'.state = .idle ∧ c'.txStartChunkInFlow = d.txStartChunkInFlow ∧ (∀ e ∈ new, e.toStore = false) ∧
        SameTask d c' := by
    intro d hd
    obtain ⟨rfl, rfl⟩ := Prod.mk.inj (Except.ok.inj hd)
    exact ⟨rfl, rfl, toStore_peers_transition d.peers now, ⟨rfl, rfl, rfl, rfl, rfl⟩⟩
  unfold reset at h
  cases maybeRange with
  | some range =>
    obtain ⟨start, stop⟩ := range
    simp only [bind, Except.bind] at h
    split at h
    · nomatch h
    · rename_i goal hgoal
      obtain ⟨hidle, htx, hstore, hsame⟩ := hfinish _ h
      refine ⟨hidle, htx, hstore, ?_⟩
      rw [if_neg (by simp), hsame.nextChunk, hsame.goal, FileSyncGoal.new_eq_ok hgoal]
  | none =>
    dsimp only at h
    by_cases hall : c.goal.allChunks = true
    · rw [if_pos hall] at h
      obtain ⟨hidle, htx, hstore, hsame⟩ := hfinish c h
      exact ⟨hidle, htx, hstore, by rw [if_pos ⟨rfl, hall⟩]; exact hsame⟩
    · rw [if_neg hall] at h
      simp only [bind, Except.bind] at h
      split at h
      · nomatch h
      · rename_i goal hgoal
        obtain ⟨hidle, htx, hstore, hsame⟩ := hfinish _ h
        refine ⟨hidle, htx, hstore, ?_⟩
        rw [if_neg (by simp [hall]), hsame.nextChunk, hsame.goal, FileSyncGoal.new_eq_ok hgoal]

/-- Every call is a `QuietStep`, a `reset`, or a response that passed the
checks of `on_response`, validated and stored or not. -/
theorem Event.run_cases {ev : Event P} (h : ev.run env c = some (c', new)) :
    QuietStep c c' new ∨
      (∃ maybeRange, ev = .reset maybeRange ∧ c.reset maybeRange env.now = .ok (c', new)) ∨
      ∃ fromPeerId response peerId since, ev = .onResponse fromPeerId response ∧
        c.state = .downloading peerId response.startIndex (response.startIndex + response.dataLen / chunkSize) since ∧
        0 < response.dataLen / chunkSize ∧
        ((response.validation = .ok true ∧
            (c', new) = c.storeResponse env response.startIndex response
              (.validateRangeProof response.startIndex (response.startIndex + response.dataLen / chunkSize)
                (.ok true))) ∨
          SameTask c c' ∧ TurnState c c'.state) := by
  cases ev with
  | reset maybeRange =>
    refine .inr (.inl ⟨maybeRange, rfl, ?_⟩)
    cases hr : c.reset maybeRange env.now with
    | error e => rw [Event.run, hr] at h; nomatch h
    | ok r => rw [Event.run, hr] at h; exact congrArg Except.ok (Option.some.inj h)
  | transition fuel => exact .inl (quietStep_transition h)
  | onPeerFound peerId =>
    obtain ⟨rfl, rfl⟩ := Prod.mk.inj (Option.some.inj h)
    exact .inl (quietStep_onPeerFound env c peerId)
  | onPeerAnnounced peerId shardConfig =>
    obtain ⟨rfl, rfl⟩ := Prod.mk.inj (Option.some.inj h)
    exact .inl (.of_fields ⟨rfl, rfl, rfl, rfl, rfl⟩ (.inl rfl))
  | onDialFailed peerId connectionLimit =>
    obtain ⟨rfl, rfl⟩ := Prod.mk.inj (Option.some.inj h)
    exact .inl (quietStep_onDialFailed env c peerId connectionLimit)
  | onPeerConnected peerId =>
    obtain ⟨rfl, rfl⟩ := Prod.mk.inj (Option.some.inj h)
    exact .inl (.of_fields ⟨rfl, rfl, rfl, rfl, rfl⟩ (.inl rfl))
  | onPeerDisconnected peerId =>
    obtain ⟨rfl, rfl⟩ := Prod.mk.inj (Option.some.inj h)
    exact .inl (.of_fields ⟨rfl, rfl, rfl, rfl, rfl⟩ (.inl rfl))
  | onResponse fromPeerId response =>
    have hr : c.onResponse env fromPeerId response = (c', new) := Option.some.inj h
    rcases onResponse_cases env c fromPeerId response with hq | ⟨peerId, since, hst, hk, hval⟩
    · rw [hr] at hq
      exact .inl hq
    · rw [hr] at hval
      exact .inr (.inr ⟨fromPeerId, response, peerId, since, rfl, hst, hk, hval⟩)
  | onRequestFailed peerId =>
    have hr : c.onRequestFailed env peerId = (c', new) := Option.some.inj h
    have hq := quietStep_onRequestFailed env c peerId
    rw [hr] at hq
    exact .inl hq

end Calls

/-- The run rule: what holds of the controller and the effects so far, and
what every call allowed in the run keeps, holds after the run. -/
theorem runEvents_inv (I : SerialSyncController P → List (Effect P) → Prop) (E : Env P × Event P → Prop)
    (hstep : ∀ env ev c effs c' new, E (env, ev) → I c effs → ev.run env c = some (c', new) → I c' (effs ++ new)) :
    ∀ (evs : List (Env P × Event P)) (c : SerialSyncController P) (effs : List (Effect P)) {c' effs'},
      (∀ e ∈ evs, E e) → I c effs → runEvents c evs = some (c', effs') → I c' (effs ++ effs')
  | [], c, effs, c', effs', _, hi, h => by
    obtain ⟨rfl, rfl⟩ := Prod.mk.inj (Option.some.inj h)
    rwa [List.append_nil]
  | (env, ev) :: rest, c, effs, c', effs', hE, hi, h => by
    simp only [runEvents, bind, Option.bind_eq_some_iff, pure, Option.some.injEq] at h
    obtain ⟨r, hr, s, hs, heq⟩ := h
    obtain ⟨rfl, rfl⟩ := Prod.mk.inj heq
    have hi' := hstep env ev c effs r.1 r.2 (hE _ (List.mem_cons_self ..)) hi hr
    have := runEvents_inv I E hstep rest r.1 (effs ++ r.2) (fun e he => hE e (List.mem_cons_of_mem _ he)) hi' hs
    rwa [List.append_assoc] at this

/-! ### The chunks a completed sync stored -/

namespace SerialSyncController

/-- A `Downloading` state waits for the chunks from `next_chunk` on, at
most a segment and within the goal. -/
def RequestsNext (c : SerialSyncController P) : Prop :=
  match c.state with
  | .downloading _ fromChunk toChunk _ =>
    fromChunk = c.nextChunk ∧ toChunk = min (c.nextChunk + poraChunkSize) c.goal.indexEnd
  | _ => True

theorem RequestsNext.of_frame {c c' : SerialSyncController P} (hr : RequestsNext c) (hs : SameTask c c')
    (hst : c'.state = c.state ∨ TurnState c c'.state) : RequestsNext c' := by
  unfold RequestsNext
  rcases hst with hst | hst
  · rw [hst, hs.nextChunk, hs.goal]
    exact hr
  · split
    · rename_i heq
      rw [heq] at hst
      rw [hs.nextChunk, hs.goal]
      exact hst
    · trivial

theorem requestsNext_of_state {c : SerialSyncController P}
    (h : c.state = .idle ∨ c.state = .completed ∨ ∃ reason, c.state = .failed reason) : RequestsNext c := by
  rcases h with h | h | ⟨reason, h⟩ <;> simp only [RequestsNext, h]

/-- The chunks of the goal before `next_chunk` that are in the shard are
stored. -/
def Covered (cfg : ShardConfig) (c : SerialSyncController P) (effs : List (Effect P)) : Prop :=
  ∀ i, c.goal.indexStart ≤ i → i < c.nextChunk → i < c.goal.indexEnd →
    inShard cfg c.txStartChunkInFlow i = true → storedChunk effs i = true

/-- The invariant of a run towards completion, for the node's shard
configuration `cfg`. -/
structure Progress (cfg : ShardConfig) (c : SerialSyncController P) (effs : List (Effect P)) : Prop where
  requestsNext : RequestsNext c
  covered : Covered cfg c effs
  completed : c.state = .completed → c.goal.indexEnd ≤ c.nextChunk

theorem progress_new (cfg : ShardConfig) (config : Config) (txId : ChunkPool.TxID) (txStart : Nat)
    (goal : FileSyncGoal) : Progress cfg (new config txId txStart goal : SerialSyncController P) [] :=
  ⟨trivial, fun _ h₁ h₂ _ _ => absurd h₂ (Nat.not_lt.mpr h₁), nofun⟩

/-- A call that keeps the task and moves the state at most to a `TurnState`
keeps the invariant, whatever it adds to the effects. -/
theorem Progress.of_frame {cfg : ShardConfig} {c c' : SerialSyncController P} {effs : List (Effect P)}
    (h : Progress cfg c effs) (hs : SameTask c c') (hst : c'.state = c.state ∨ TurnState c c'.state)
    (new : List (Effect P)) : Progress cfg c' (effs ++ new) := by
  refine ⟨h.requestsNext.of_frame hs hst, fun i h₁ h₂ h₃ h₄ => ?_, fun hc => ?_⟩
  · rw [hs.goal, hs.nextChunk, hs.txStart] at *
    exact storedChunk_append (h.covered i h₁ h₂ h₃ h₄) new
  · rcases hst with hst | hst
    · rw [hs.goal, hs.nextChunk]
      exact h.completed (hst ▸ hc)
    · exact absurd hc hst.ne_completed

/-- The chunks before `next_chunk` stay covered once a response over
`[next_chunk, min(next_chunk + PORA_CHUNK_SIZE, index_end))` is stored and
`next_chunk` moves to the next segment of the shard. -/
theorem covered_nextChunk {cfg : ShardConfig} (hv : cfg.validate = .ok ()) {c : SerialSyncController P}
    {effs effs' : List (Effect P)} (hcov : Covered cfg c effs)
    (hmono : ∀ i, storedChunk effs i = true → storedChunk effs' i = true)
    (hnew : ∀ i, c.nextChunk ≤ i → i < min (c.nextChunk + poraChunkSize) c.goal.indexEnd → storedChunk effs' i = true)
    (i : Nat) (h₁ : c.goal.indexStart ≤ i)
    (h₂ : i < segmentToSector (cfg.nextSegmentIndex (sectorToSegment c.nextChunk)
      (sectorToSegment c.txStartChunkInFlow)))
    (h₃ : i < c.goal.indexEnd) (h₄ : inShard cfg c.txStartChunkInFlow i = true) : storedChunk effs' i = true := by
  -- before `next_chunk`, from the invariant; in the response, stored now; past it, outside the shard
  by_cases hlt : i < c.nextChunk
  · exact hmono i (hcov i h₁ hlt h₃ h₄)
  · by_cases hseg : i < c.nextChunk + poraChunkSize
    · exact hnew i (Nat.not_lt.mp hlt) (Nat.lt_min.mpr ⟨hseg, h₃⟩)
    · rw [inShard_eq_false_of_lt_nextChunk hv (Nat.not_lt.mp hseg) h₂] at h₄
      nomatch h₄

/-- What `storeResponse` keeps and changes: the goal and the file stay,
the effects start with the validation and the store of the chunks, and the
state is not `Downloading`; the store succeeded and `next_chunk` moved to
the next segment of the shard, `Completed` only past the goal, or it failed
and nothing moved. -/
theorem storeResponse_spec (env : Env P) (c : SerialSyncController P) (fromChunk : Nat) (response : Response)
    (validate : Effect P) :
    (c.storeResponse env fromChunk response validate).1.goal = c.goal ∧
      (c.storeResponse env fromChunk response validate).1.txStartChunkInFlow = c.txStartChunkInFlow ∧
      (∃ rest, (c.storeResponse env fromChunk response validate).2 = validate ::
        .putChunks response.startIndex (response.startIndex + response.dataLen / chunkSize) response.put :: rest) ∧
      RequestsNext (c.storeResponse env fromChunk response validate).1 ∧
      ((response.put = .ok true ∧
          (c.storeResponse env fromChunk response validate).1.nextChunk =
            segmentToSector (env.shardConfig.nextSegmentIndex (sectorToSegment fromChunk)
              (sectorToSegment c.txStartChunkInFlow)) ∧
          ((c.storeResponse env fromChunk response validate).1.state = .completed →
            c.goal.indexEnd ≤ (c.storeResponse env fromChunk response validate).1.nextChunk)) ∨
        (c.storeResponse env fromChunk response validate).1.nextChunk = c.nextChunk ∧
          (c.storeResponse env fromChunk response validate).1.state ≠ .completed) := by
  unfold storeResponse
  dsimp only
  split
  · rename_i hput
    split
    · exact ⟨rfl, rfl, ⟨[], by rw [hput]⟩, requestsNext_of_state (.inl rfl), .inl ⟨hput, rfl, nofun⟩⟩
    · rename_i hend
      split
      · exact ⟨rfl, rfl, ⟨[], by rw [hput]⟩, requestsNext_of_state (.inr (.inl rfl)),
          .inl ⟨hput, rfl, fun _ => Nat.not_lt.mp hend⟩⟩
      · split
        · exact ⟨rfl, rfl, ⟨_, by rw [hput]⟩, requestsNext_of_state (.inr (.inl rfl)),
            .inl ⟨hput, rfl, fun _ => Nat.not_lt.mp hend⟩⟩
        · exact ⟨rfl, rfl, ⟨_, by rw [hput]⟩, requestsNext_of_state (.inr (.inr ⟨_, rfl⟩)),
            .inl ⟨hput, rfl, nofun⟩⟩
        · exact ⟨rfl, rfl, ⟨_, by rw [hput]⟩, requestsNext_of_state (.inr (.inr ⟨_, rfl⟩)),
            .inl ⟨hput, rfl, nofun⟩⟩
  · rename_i hput
    exact ⟨rfl, rfl, ⟨[], by rw [hput]⟩, requestsNext_of_state (.inr (.inr ⟨_, rfl⟩)), .inr ⟨rfl, nofun⟩⟩
  · rename_i err hput
    exact ⟨rfl, rfl, ⟨[], by rw [hput]⟩, requestsNext_of_state (.inr (.inr ⟨_, rfl⟩)), .inr ⟨rfl, nofun⟩⟩

/-- A validated response keeps the invariant. -/
theorem Progress.storeResponse {env : Env P} (hv : env.shardConfig.validate = .ok ()) {c : SerialSyncController P}
    {effs : List (Effect P)} (h : Progress env.shardConfig c effs) {response : Response} {peerId : P} {since : Nat}
    (hst : c.state = .downloading peerId response.startIndex (response.startIndex + response.dataLen / chunkSize) since)
    (validate : Effect P) :
    Progress env.shardConfig (c.storeResponse env response.startIndex response validate).1
      (effs ++ (c.storeResponse env response.startIndex response validate).2) := by
  obtain ⟨hgoal, htx, ⟨rest, heffs⟩, hreq, hnext⟩ := storeResponse_spec env c response.startIndex response validate
  -- the response is the one requested: from `next_chunk`, at most a segment
  have hreq₀ := h.requestsNext
  simp only [RequestsNext, hst] at hreq₀
  obtain ⟨hfrom, hto⟩ := hreq₀
  have hmono : ∀ i, storedChunk effs i = true →
      storedChunk (effs ++ (c.storeResponse env response.startIndex response validate).2) i = true :=
    fun i hi => storedChunk_append hi _
  refine ⟨hreq, ?_, ?_⟩
  · intro i h₁ h₂ h₃ h₄
    rw [hgoal] at h₁ h₃
    rw [htx] at h₄
    rcases hnext with ⟨hput, hn, -⟩ | ⟨hn, -⟩
    · refine covered_nextChunk hv h.covered hmono (fun j hj₁ hj₂ => ?_) i h₁ ?_ h₃ h₄
      · rw [heffs, hput]
        refine storedChunk_of_mem (List.mem_append_right _ (List.mem_cons_of_mem _ List.mem_cons_self))
          (hfrom ▸ hj₁) ?_
        rw [← hto] at hj₂
        exact hj₂
      · rw [← hfrom, ← hn]
        exact h₂
    · rw [hn] at h₂
      exact hmono i (h.covered i h₁ h₂ h₃ h₄)
  · intro hc
    rcases hnext with ⟨-, -, hcompl⟩ | ⟨-, hne⟩
    · rw [hgoal]
      exact hcompl hc
    · exact absurd hc hne

/-- Every call keeps the invariant, the node's shard configuration valid
and the one of the invariant. -/
theorem Progress.run {cfg : ShardConfig} (hv : cfg.validate = .ok ()) {env : Env P} {ev : Event P}
    {c c' : SerialSyncController P} {effs new : List (Effect P)} (henv : env.shardConfig = cfg)
    (h : Progress cfg c effs) (hrun : ev.run env c = some (c', new)) : Progress cfg c' (effs ++ new) := by
  subst henv
  rcases Event.run_cases hrun with hq | ⟨maybeRange, -, hreset⟩ | ⟨_, response, peerId, since, -, hst, -, hval⟩
  · exact h.of_frame hq.sameTask hq.state new
  · -- a reset keeps the task or starts over at the goal's start
    obtain ⟨hidle, htx, -, hkeep⟩ := reset_spec hreset
    split at hkeep
    · exact h.of_frame hkeep (.inr (by rw [hidle]; trivial)) new
    · refine ⟨requestsNext_of_state (.inl hidle), fun i h₁ h₂ _ _ => ?_, fun hc => nomatch hidle.symm.trans hc⟩
      rw [hkeep] at h₂
      exact absurd h₂ (Nat.not_lt.mpr h₁)
  · rcases hval with ⟨-, hstore⟩ | ⟨hs, hturn⟩
    · rw [Prod.ext_iff] at hstore
      obtain ⟨rfl, rfl⟩ := hstore
      exact h.storeResponse hv hst _
    · exact h.of_frame hs (.inr hturn) new

end SerialSyncController

open SerialSyncController in
/-- A serial sync that reaches `Completed` from `new` has stored every chunk
of its goal in the node's shard, with the node's shard configuration valid
and the same along the run. -/
theorem completed_stores_shard_chunks {cfg : ShardConfig} (hv : cfg.validate = .ok ()) {config : Config}
    {txId : ChunkPool.TxID} {txStart : Nat} {goal : FileSyncGoal} {evs : List (Env P × Event P)}
    (henv : ∀ e ∈ evs, e.1.shardConfig = cfg) {c : SerialSyncController P} {effs : List (Effect P)}
    (hrun : runEvents (new config txId txStart goal) evs = some (c, effs)) (hc : c.state = .completed) :
    ∀ i, c.goal.indexStart ≤ i → i < c.goal.indexEnd → inShard cfg c.txStartChunkInFlow i = true →
      storedChunk effs i = true := by
  have hp := runEvents_inv (Progress cfg) (fun e => e.1.shardConfig = cfg)
    (fun _ _ _ _ _ _ he hi hr => Progress.run hv he hi hr) evs _ [] henv (progress_new cfg config txId txStart goal)
    hrun
  rw [List.nil_append] at hp
  intro i h₁ h₃ h₄
  exact hp.covered i h₁ (Nat.lt_of_lt_of_le h₃ (hp.completed hc)) h₃ h₄

open SerialSyncController in
/-- A node of a single shard syncs a file of one chunk from a peer that
announced it: the peer is found, connected and asked for the chunk, and the
response is stored and the file finalized. -/
theorem completed_stores_shard_chunks_oneChunk :
    let env : Env Nat := ⟨0, ⟨1, 0⟩, 1, fun _ => none, [], 0, fun _ => 0⟩
    let evs : List (Env Nat × Event Nat) :=
      [(env, .onPeerAnnounced 7 ⟨1, 0⟩), (env, .transition 8), (env, .onResponse 7 ⟨0, 256, .ok true, .ok true, .ok true⟩)]
    (⟨1, 0⟩ : ShardConfig).validate = .ok () ∧ (∀ e ∈ evs, e.1.shardConfig = ⟨1, 0⟩) ∧
      ∃ r, runEvents (SerialSyncController.new Config.default ⟨0, H256.zero⟩ 0 ⟨1, 0, 1, true⟩) evs = some r ∧
        r.1.state = .completed ∧
        ∀ i, r.1.goal.indexStart ≤ i → i < r.1.goal.indexEnd → inShard ⟨1, 0⟩ r.1.txStartChunkInFlow i = true →
          storedChunk r.2 i = true := by
  intro env evs
  -- the peer that announced itself is connected with the single shard: the loop finds, connects to and
  -- requests from it
  have hA : ∀ states, PeerState.connected ∈ states →
      (((SerialSyncController.new Config.default ⟨0, H256.zero⟩ 0 ⟨1, 0, 1, true⟩).onPeerAnnounced env 7
        ⟨1, 0⟩).peers.transition env.now).1.allShardsAvailable states = true := fun states h =>
    (SyncPeers.allShardsAvailable_iff_covers _ _).mpr fun seg =>
      ⟨7, _, rfl, h, by decide, by simp [ShardConfig.inRange, Nat.mod_one]⟩
  have hloop : ((SerialSyncController.new Config.default ⟨0, H256.zero⟩ 0 ⟨1, 0, 1, true⟩).onPeerAnnounced env 7
      ⟨1, 0⟩).transition env 8 = WhileLoop.run (transitionStep env) 5
      (({ (SerialSyncController.new Config.default ⟨0, H256.zero⟩ 0 ⟨1, 0, 1, true⟩).onPeerAnnounced env 7 ⟨1, 0⟩ with
        peers := (((SerialSyncController.new Config.default ⟨0, H256.zero⟩ 0 ⟨1, 0, 1, true⟩).onPeerAnnounced env 7
          ⟨1, 0⟩).peers.transition env.now).1, state := .awaitingDownload env.now } : SerialSyncController Nat), []) := by
    rw [transition, WhileLoop.run_succ_of_eq (by rw [transitionStep_idle rfl, if_pos (hA _ (by decide))]),
      WhileLoop.run_succ_of_eq (by rw [transitionStep_foundPeers rfl, if_pos (hA _ (by decide))]),
      WhileLoop.run_succ_of_eq (by rw [transitionStep_connectingPeers rfl, if_pos (hA _ (by decide))])]
    rfl
  obtain ⟨r, hr, hc⟩ : ∃ r, runEvents (SerialSyncController.new Config.default ⟨0, H256.zero⟩ 0 ⟨1, 0, 1, true⟩) evs =
      some r ∧ r.1.state = .completed := by
    simp only [evs, runEvents, Event.run, Option.bind_eq_bind, Option.bind_some, hloop]
    exact ⟨_, Option.eq_some_of_isSome (by decide +kernel), by decide +kernel⟩
  exact ⟨by decide, by decide, r, hr, hc, completed_stores_shard_chunks (by decide) (by decide) hr hc⟩

namespace SerialSyncController

/-- A file sync whose `next_chunk` is past the end of its goal but that is
not `Completed`: where a failed finalization leaves it. -/
structure PastEnd (c : SerialSyncController P) : Prop where
  allChunks : c.goal.allChunks = true
  past : c.goal.indexEnd ≤ c.nextChunk
  notCompleted : c.state ≠ .completed
  requestsNext : RequestsNext c

/-- Every call but a reset with a range keeps a sync past its end, and asks
nothing of the store: its request is empty, so no response passes the
range check. -/
theorem PastEnd.run {env : Env P} {ev : Event P} {c c' : SerialSyncController P} {new : List (Effect P)}
    (h : PastEnd c) (hev : ∀ range, ev ≠ .reset (some range)) (hrun : ev.run env c = some (c', new)) :
    PastEnd c' ∧ ∀ e ∈ new, e.toStore = false := by
  rcases Event.run_cases hrun with hq | ⟨maybeRange, rfl, hreset⟩ | ⟨_, response, peerId, since, -, hst, hk, -⟩
  · refine ⟨⟨hq.sameTask.goal ▸ h.allChunks, hq.sameTask.goal ▸ hq.sameTask.nextChunk ▸ h.past, ?_,
      h.requestsNext.of_frame hq.sameTask hq.state⟩, hq.noStore⟩
    rcases hq.state with hst | hst
    · rw [hst]
      exact h.notCompleted
    · exact hst.ne_completed
  · -- without a range, a reset of a file sync keeps the task: the break point
    have hnone : maybeRange = none := by
      cases maybeRange with
      | none => rfl
      | some range => exact absurd rfl (hev range)
    obtain ⟨hidle, -, hstore, hkeep⟩ := reset_spec hreset
    rw [if_pos ⟨hnone, h.allChunks⟩] at hkeep
    refine ⟨⟨hkeep.goal ▸ h.allChunks, hkeep.goal ▸ hkeep.nextChunk ▸ h.past, ?_, ?_⟩, hstore⟩
    · rw [hidle]
      nofun
    · exact requestsNext_of_state (.inl hidle)
  · -- the request is `[next_chunk, min(..., index_end))`, empty past the end
    have hreq := h.requestsNext
    simp only [RequestsNext, hst] at hreq
    have hmin := Nat.min_le_right (c.nextChunk + poraChunkSize) c.goal.indexEnd
    have := h.past
    omega

end SerialSyncController

open SerialSyncController in
/-- A file sync past the end of its goal that is not `Completed` never
completes and never asks the store again, along every run of calls in which
no reset names a range: the service resets a failed controller without one,
so a file whose finalization failed is not finalized by its controller. -/
theorem pastEnd_never_completes {c : SerialSyncController P} (h : PastEnd c) {evs : List (Env P × Event P)}
    (hreset : ∀ e ∈ evs, ∀ range, e.2 ≠ .reset (some range)) {c' : SerialSyncController P}
    {effs : List (Effect P)} (hrun : runEvents c evs = some (c', effs)) :
    c'.state ≠ .completed ∧ ∀ e ∈ effs, e.toStore = false := by
  have hp := runEvents_inv (fun c effs => PastEnd c ∧ ∀ e ∈ effs, e.toStore = false)
    (fun e => ∀ range, e.2 ≠ .reset (some range))
    (fun _ _ _ _ _ _ he hi hr => by
      obtain ⟨hpast, hnew⟩ := hi.1.run he hr
      refine ⟨hpast, fun e he' => ?_⟩
      rcases List.mem_append.mp he' with he' | he'
      · exact hi.2 e he'
      · exact hnew e he')
    evs c [] hreset ⟨h, fun _ h => nomatch h⟩ hrun
  rw [List.nil_append] at hp
  exact ⟨hp.1.notCompleted, hp.2⟩

open SerialSyncController in
/-- The finalization of a downloaded file fails with a database error; the
controller, reset by the service and run again, stays past its end. -/
theorem pastEnd_never_completes_finalizeError :
    let env : Env Nat := ⟨0, ⟨1, 0⟩, 1, fun _ => none, [], 0, fun _ => 0⟩
    let downloading : SerialSyncController Nat :=
      ⟨Config.default, ⟨0, H256.zero⟩, 0, ⟨1, 0, 1, true⟩, 0, 0, .downloading 7 0 1 0, SyncPeers.new Config.default⟩
    let c := (downloading.onResponse env 7 ⟨0, 256, .ok true, .ok true, .error (.bail "db")⟩).1
    let evs : List (Env Nat × Event Nat) := [(env, .reset none), (env, .transition 8)]
    c.state = .failed (.dbError (.bail "db")) ∧ PastEnd c ∧ (∀ e ∈ evs, ∀ range, e.2 ≠ .reset (some range)) ∧
      ∃ r, runEvents c evs = some r ∧ r.1.state ≠ .completed ∧ ∀ e ∈ r.2, e.toStore = false := by
  intro env downloading c evs
  have hst : c.state = .failed (.dbError (.bail "db")) := by decide +kernel
  have hpast : PastEnd c :=
    ⟨by decide +kernel, by decide +kernel, by rw [hst]; nofun, requestsNext_of_state (.inr (.inr ⟨_, hst⟩))⟩
  have hreset : ∀ e ∈ evs, ∀ range, e.2 ≠ .reset (some range) := by
    intro e he range
    simp only [evs, List.mem_cons, List.not_mem_nil, or_false] at he
    rcases he with rfl | rfl <;> nofun
  obtain ⟨r, hr⟩ : ∃ r, runEvents c evs = some r := ⟨_, Option.eq_some_of_isSome (by decide +kernel)⟩
  exact ⟨hst, hpast, hreset, r, hr, pastEnd_never_completes hpast hreset hr⟩

end Sync

end ZgStorage
