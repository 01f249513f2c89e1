import ZgStorage.Framework.PriorityQueue
import ZgStorage.Framework.Except
import ZgStorage.AppendMerkle.NodeManager

/-!
# The file location cache

`FileCache` (`file_location_cache.rs`) keeps, for each file, the latest
announcement of each peer that stores it, in an `AnnouncementCache` of at
most `max_entries_per_file` announcements with the peers in a priority queue
by timestamp, the oldest on top (`Reverse<u32>`, here `ℕᵒᵈ`). Over the files
it keeps a second such queue, by the oldest announcement of each file, and
the total of the announcements, which an insert brings back to at most
`max_entries_total` by popping the oldest one. The reads `random` and `all`
collect a file's expired announcements first, and so change the total and
the queues as well.

The invariant is `FileCache.Consistent`: the total is the sum of the files'
lengths, every file's cache keeps `AnnouncementCache.Inv` (its queue holds
exactly its peers, each at its announcement's timestamp, and no more than its
capacity) and is not empty, and the file queue holds exactly the files, each
at its oldest timestamp.

Which of several announcements of one timestamp a queue gives up first is
the crate's heap's to choose; the cache is stated for any `TopChoice` of
each queue, and so is every result below.

## Main results

* `AnnouncementCache.Keyed.peekPriority`: the top of a consistent queue is
  the oldest timestamp.
* `FileCache.Consistent.update`: `update_on_announcement_cache_changed`
  after any change of one file's cache that keeps its invariant.
* `FileCache.Consistent.pop`, `.insert`, `.random`, `.all`, `.remove`: each
  call keeps the invariant and moves the total as the code says.
* `runOps_consistent`: every run of calls from a new cache keeps it
  consistent and within `max_entries_total`, and no call panics when each
  file may hold an announcement.
-/

namespace ZgStorage.FileLocationCache

open OrderDual (toDual ofDual)

/-- `SignedAnnounceFile`, with the fields the cache reads: the announcing
peer and the time of the announcement (`u32` seconds). -/
structure SignedAnnounceFile (P : Type) where
  peerId : P
  timestamp : Nat

/-- `Config` of the cache. -/
structure Config where
  maxEntriesTotal : Nat
  maxEntriesPerFile : Nat
  entryExpirationTimeSecs : Nat

/-- `AnnouncementCache`: the latest announcement of each peer, and the peers
by the time of their announcements, the oldest on top. -/
structure AnnouncementCache (P : Type) where
  capacity : Nat
  timeoutSecs : Nat
  items : AList (fun _ : P => SignedAnnounceFile P)
  priorities : PriorityQueue P ℕᵒᵈ

namespace AnnouncementCache

variable {P : Type} [DecidableEq P] [PriorityQueue.TopChoice P ℕᵒᵈ]

/-- `AnnouncementCache::new`. -/
def new (capacity timeoutSecs : Nat) : Except Error (AnnouncementCache P) :=
  if capacity > 0 then pure ⟨capacity, timeoutSecs, ∅, PriorityQueue.empty⟩
  else throw (.panic "assertion failed: capacity > 0")

/-- `peek_priority`: the priority of the oldest announcement. -/
def peekPriority (c : AnnouncementCache P) : Option ℕᵒᵈ := c.priorities.peek.map Prod.snd

/-- `pop`: the oldest announcement, taken out. -/
def pop (c : AnnouncementCache P) : Option (SignedAnnounceFile P) × AnnouncementCache P :=
  c.priorities.pop.1.elim (none, c) fun top =>
    (c.items.lookup top.1, { c with items := c.items.erase top.1, priorities := c.priorities.pop.2 })

/-- `len`. -/
def len (c : AnnouncementCache P) : Nat := c.items.entries.length

/-- The loop of `garbage_collect` at the clock value `now`: pop the oldest
announcement while it has expired, counting them. One round pops one, so
as many rounds as the queue holds are enough. -/
def garbageCollectLoop (now : Nat) : Nat → AnnouncementCache P → Nat → Nat × AnnouncementCache P
  | 0, c, collected => (collected, c)
  | fuel + 1, c, collected =>
    c.priorities.peek.elim (collected, c) fun top =>
      -- `ts + self.timeout_secs` on `u32`, wrapping as a release build does
      if (ofDual top.2 + c.timeoutSecs) % 2 ^ 32 > now then (collected, c)
      else garbageCollectLoop now fuel c.pop.2 (collected + 1)

/-- `garbage_collect`: the number of expired announcements, and the cache
without them. -/
def garbageCollect (c : AnnouncementCache P) (now : Nat) : Nat × AnnouncementCache P :=
  garbageCollectLoop now c.priorities.len c 0

/-- `do_insert_or_update`. -/
def doInsertOrUpdate (c : AnnouncementCache P) (announcement : SignedAnnounceFile P) : AnnouncementCache P :=
  { c with
    priorities := c.priorities.push announcement.peerId (toDual announcement.timestamp)
    items := c.items.insert announcement.peerId announcement }

/-- `insert`. -/
def insert (c : AnnouncementCache P) (now : Nat) (announcement : SignedAnnounceFile P) : AnnouncementCache P :=
  let c := (c.garbageCollect now).2
  -- an announcement no newer than the peer's last one is ignored
  if (c.items.lookup announcement.peerId).any fun existing => announcement.timestamp ≤ existing.timestamp then c
  else
    let c := c.doInsertOrUpdate announcement
    -- the oldest one goes if the capacity is exceeded
    if c.len > c.capacity then c.pop.2 else c

/-- `random`: the announcement at a position the caller picks (the code
draws it from the thread's random generator), and the count of expired
ones collected. -/
def random (c : AnnouncementCache P) (now choice : Nat) :
    (Option (SignedAnnounceFile P) × Nat) × AnnouncementCache P :=
  let gc := c.garbageCollect now
  if gc.2.items.entries.isEmpty then ((none, gc.1), gc.2)
  else ((gc.2.items.entries[choice % gc.2.len]?.map (·.2), gc.1), gc.2)

/-- `all`: the announcements left after collecting the expired ones, and
their count. -/
def all (c : AnnouncementCache P) (now : Nat) : (List (SignedAnnounceFile P) × Nat) × AnnouncementCache P :=
  let gc := c.garbageCollect now
  ((gc.2.items.entries.map (·.2), gc.1), gc.2)

/-- `remove`: the announcement of a peer, taken out. -/
def remove (c : AnnouncementCache P) (peerId : P) : Option (SignedAnnounceFile P) × AnnouncementCache P :=
  (c.priorities.remove peerId).1.elim (none, c) fun _ =>
    (c.items.lookup peerId, { c with items := c.items.erase peerId, priorities := (c.priorities.remove peerId).2 })

/-! ### The invariant of one file's cache -/

/-- The oldest timestamp of the announcements. -/
def oldestTimestamp (c : AnnouncementCache P) : Option Nat := (c.items.entries.map fun e => e.2.timestamp).min?

/-- The queue holds exactly the peers of the announcements, each at the
timestamp of its announcement. -/
def Keyed (c : AnnouncementCache P) : Prop :=
  ∀ peer, c.priorities.lookup peer = (c.items.lookup peer).map fun a => toDual a.timestamp

/-- The invariant of a file's cache: keyed, and within its capacity, which
is positive. -/
structure Inv (c : AnnouncementCache P) : Prop where
  keyed : c.Keyed
  len_le : c.len ≤ c.capacity
  capacity_pos : 0 < c.capacity

omit [DecidableEq P] [PriorityQueue.TopChoice P ℕᵒᵈ] in
theorem new_ok {capacity timeoutSecs : Nat} (h : 0 < capacity) :
    new capacity timeoutSecs = .ok (⟨capacity, timeoutSecs, ∅, PriorityQueue.empty⟩ : AnnouncementCache P) := by
  rw [new, if_pos h]
  rfl

omit [PriorityQueue.TopChoice P ℕᵒᵈ] in
/-- A new cache is empty and keeps the invariant. -/
theorem inv_of_new_eq_ok {capacity timeoutSecs : Nat} {c : AnnouncementCache P}
    (h : new capacity timeoutSecs = .ok c) : c.Inv ∧ c.len = 0 := by
  unfold new at h
  split at h
  · rename_i hpos
    cases h
    exact ⟨⟨fun _ => rfl, Nat.zero_le _, hpos⟩, rfl⟩
  · cases h

@[simp] theorem pop_capacity (c : AnnouncementCache P) : c.pop.2.capacity = c.capacity := by
  unfold pop
  cases c.priorities.pop.1 <;> rfl

/-- A keyed cache is empty exactly when its queue is. -/
theorem Keyed.len_eq_zero_iff {c : AnnouncementCache P} (hc : c.Keyed) :
    c.len = 0 ↔ c.priorities.peek = none := by
  have hc' : ∀ peer, _ = _ := hc
  rw [len, List.length_eq_zero_iff, AList.entries_eq_nil_iff, PriorityQueue.peek_eq_none_iff]
  simp only [hc', Option.map_eq_none_iff]

theorem Keyed.peekPriority_eq_none_iff {c : AnnouncementCache P} (hc : c.Keyed) :
    c.peekPriority = none ↔ c.len = 0 := by
  rw [peekPriority, Option.map_eq_none_iff, hc.len_eq_zero_iff]

omit [PriorityQueue.TopChoice P ℕᵒᵈ] in
/-- Taking a peer out of the announcements and the queue keeps them keyed. -/
theorem Keyed.erase {c : AnnouncementCache P} (hc : c.Keyed) (k : P) {q : PriorityQueue P ℕᵒᵈ}
    (hq : ∀ k', q.lookup k' = if k' = k then none else c.priorities.lookup k') :
    Keyed { c with items := c.items.erase k, priorities := q } := by
  intro peer
  show q.lookup peer = _
  rw [hq]
  split
  · rename_i h
    rw [h, AList.lookup_erase]
    rfl
  · rename_i h
    rw [AList.lookup_erase_ne h, hc]

omit [PriorityQueue.TopChoice P ℕᵒᵈ] in
theorem len_erase {c : AnnouncementCache P} {k : P} {a : SignedAnnounceFile P} (h : c.items.lookup k = some a)
    (q : PriorityQueue P ℕᵒᵈ) : len { c with items := c.items.erase k, priorities := q } + 1 = c.len :=
  AList.length_erase_of_lookup h

/-- What `pop` does to a keyed cache: nothing if it is empty, and otherwise
it takes out the announcement of the peer on top. -/
theorem Keyed.pop_cases {c : AnnouncementCache P} (hc : c.Keyed) :
    (c.len = 0 ∧ c.priorities.peek = none ∧ c.pop = (none, c)) ∨
    ∃ k a, c.items.lookup k = some a ∧ c.priorities.peek = some (k, toDual a.timestamp) ∧
      c.pop = (some a, { c with items := c.items.erase k, priorities := c.priorities.pop.2 }) := by
  cases hpk : c.priorities.peek with
  | none =>
    refine .inl ⟨hc.len_eq_zero_iff.mpr hpk, rfl, ?_⟩
    rw [pop, PriorityQueue.pop_fst, hpk]
    rfl
  | some top =>
    obtain ⟨k, p⟩ := top
    have hk := (PriorityQueue.peek_spec hpk).1
    rw [hc] at hk
    obtain ⟨a, ha, hp⟩ := Option.map_eq_some_iff.mp hk
    subst hp
    refine .inr ⟨k, a, ha, rfl, ?_⟩
    rw [pop, PriorityQueue.pop_fst, hpk, Option.elim_some, ha]

theorem Keyed.pop {c : AnnouncementCache P} (hc : c.Keyed) : c.pop.2.Keyed := by
  rcases hc.pop_cases with ⟨-, -, hp⟩ | ⟨k, a, -, hpk, hp⟩
  · rw [hp]
    exact hc
  · rw [hp]
    exact hc.erase k (PriorityQueue.lookup_pop hpk)

/-- Popping a cache with an announcement returns one and takes it out. -/
theorem Keyed.pop_of_pos {c : AnnouncementCache P} (hc : c.Keyed) (h : 0 < c.len) :
    ∃ a, c.pop.1 = some a ∧ c.pop.2.len + 1 = c.len := by
  rcases hc.pop_cases with ⟨h0, -, -⟩ | ⟨k, a, ha, -, hp⟩
  · omega
  · rw [hp]
    exact ⟨a, rfl, len_erase ha _⟩

theorem Keyed.len_pop_le {c : AnnouncementCache P} (hc : c.Keyed) : c.pop.2.len ≤ c.len := by
  rcases Nat.eq_zero_or_pos c.len with h0 | hpos
  · rcases hc.pop_cases with ⟨-, -, hp⟩ | ⟨k, a, ha, -, -⟩
    · rw [hp]
    · have := AList.length_erase_of_lookup ha
      rw [len] at h0
      omega
  · obtain ⟨a, -, hlen⟩ := hc.pop_of_pos hpos
    omega

/-- Each round of the collection pops one announcement: the loop keeps the
cache keyed with its capacity, counts what it took out, and changes nothing
when it took nothing. -/
theorem Keyed.garbageCollectLoop_spec (now : Nat) :
    ∀ (fuel : Nat) {c : AnnouncementCache P} (collected : Nat), c.Keyed →
      (garbageCollectLoop now fuel c collected).2.Keyed ∧
      (garbageCollectLoop now fuel c collected).2.len + (garbageCollectLoop now fuel c collected).1 =
        c.len + collected ∧
      collected ≤ (garbageCollectLoop now fuel c collected).1 ∧
      (garbageCollectLoop now fuel c collected).2.capacity = c.capacity ∧
      ((garbageCollectLoop now fuel c collected).1 = collected → (garbageCollectLoop now fuel c collected).2 = c)
  | 0, c, collected, hc => ⟨hc, rfl, le_rfl, rfl, fun _ => rfl⟩
  | fuel + 1, c, collected, hc => by
    rcases hc.pop_cases with ⟨-, hpk, -⟩ | ⟨k, a, ha, hpk, -⟩
    · rw [garbageCollectLoop, hpk]
      exact ⟨hc, rfl, le_rfl, rfl, fun _ => rfl⟩
    · rw [garbageCollectLoop, hpk, Option.elim_some]
      split
      · exact ⟨hc, rfl, le_rfl, rfl, fun _ => rfl⟩
      · -- the oldest announcement has expired and is popped
        obtain ⟨hk, hlen, hle, hcap, -⟩ := Keyed.garbageCollectLoop_spec now fuel (collected + 1) hc.pop
        obtain ⟨-, -, hpop⟩ := hc.pop_of_pos (by have := len_erase ha c.priorities; omega)
        exact ⟨hk, by omega, by omega, by rw [hcap, pop_capacity], fun h => by omega⟩

/-- The collection keeps the invariant, and takes out what it counts. -/
theorem Inv.garbageCollect {c : AnnouncementCache P} (hc : c.Inv) (now : Nat) :
    (c.garbageCollect now).2.Inv ∧ (c.garbageCollect now).2.len + (c.garbageCollect now).1 = c.len ∧
      ((c.garbageCollect now).1 = 0 → (c.garbageCollect now).2 = c) := by
  obtain ⟨hk, hlen, -, hcap, hsame⟩ := hc.keyed.garbageCollectLoop_spec now c.priorities.len 0
  have hgc : c.garbageCollect now = garbageCollectLoop now c.priorities.len c 0 := rfl
  rw [hgc]
  refine ⟨⟨hk, ?_, ?_⟩, hlen, hsame⟩
  · have := hc.len_le
    omega
  · rw [hcap]
    exact hc.capacity_pos

omit [PriorityQueue.TopChoice P ℕᵒᵈ] in
theorem Keyed.doInsertOrUpdate {c : AnnouncementCache P} (hc : c.Keyed) (a : SignedAnnounceFile P) :
    (c.doInsertOrUpdate a).Keyed := by
  intro peer
  show (c.priorities.push a.peerId (toDual a.timestamp)).lookup peer = (AList.lookup peer (c.items.insert a.peerId a)).map _
  rw [PriorityQueue.lookup_push]
  split
  · rename_i h
    rw [h, AList.lookup_insert]
    rfl
  · rename_i h
    rw [AList.lookup_insert_ne h, hc]

omit [PriorityQueue.TopChoice P ℕᵒᵈ] in
theorem lookup_doInsertOrUpdate (c : AnnouncementCache P) (a : SignedAnnounceFile P) :
    (c.doInsertOrUpdate a).items.lookup a.peerId = some a :=
  AList.lookup_insert _

omit [PriorityQueue.TopChoice P ℕᵒᵈ] in
theorem len_doInsertOrUpdate_le (c : AnnouncementCache P) (a : SignedAnnounceFile P) :
    (c.doInsertOrUpdate a).len ≤ c.len + 1 := by
  have := AList.length_erase_le c.items a.peerId
  have := AList.length_insert c.items a.peerId a
  show (c.items.insert a.peerId a).entries.length ≤ c.items.entries.length + 1
  omega

omit [PriorityQueue.TopChoice P ℕᵒᵈ] in
theorem pos_len_of_lookup {c : AnnouncementCache P} {k : P} {a : SignedAnnounceFile P}
    (h : c.items.lookup k = some a) : 0 < c.len := by
  have := AList.length_erase_of_lookup h
  unfold len
  omega

/-- An insert keeps the invariant, leaves the cache not empty, and adds at
most one announcement. -/
theorem Inv.insert {c : AnnouncementCache P} (hc : c.Inv) (now : Nat) (a : SignedAnnounceFile P) :
    (c.insert now a).Inv ∧ 0 < (c.insert now a).len ∧ (c.insert now a).len ≤ c.len + 1 := by
  obtain ⟨hgc, hlen, -⟩ := hc.garbageCollect now
  unfold AnnouncementCache.insert
  generalize c.garbageCollect now = g at hgc hlen ⊢
  dsimp only
  split
  · -- the peer's last announcement is newer and stays
    rename_i hold
    cases hex : g.2.items.lookup a.peerId with
    | none => rw [hex] at hold; cases hold
    | some existing => exact ⟨hgc, pos_len_of_lookup hex, by omega⟩
  · have hk := hgc.keyed.doInsertOrUpdate a
    have hle := len_doInsertOrUpdate_le g.2 a
    have hpos := pos_len_of_lookup (lookup_doInsertOrUpdate g.2 a)
    have hcap : (g.2.doInsertOrUpdate a).capacity = g.2.capacity := rfl
    have := hgc.len_le
    split
    · -- over capacity: the oldest goes
      rename_i hover
      obtain ⟨-, -, hpop⟩ := hk.pop_of_pos hpos
      refine ⟨⟨hk.pop, ?_, ?_⟩, ?_, ?_⟩
      · rw [pop_capacity]
        omega
      · rw [pop_capacity, hcap]
        exact hgc.capacity_pos
      · have := hgc.capacity_pos
        omega
      · omega
    · rename_i hunder
      exact ⟨⟨hk, by omega, by rw [hcap]; exact hgc.capacity_pos⟩, hpos, by omega⟩

theorem random_snd (c : AnnouncementCache P) (now choice : Nat) :
    (c.random now choice).2 = (c.garbageCollect now).2 := by
  unfold random
  dsimp only
  split <;> rfl

theorem random_collected (c : AnnouncementCache P) (now choice : Nat) :
    (c.random now choice).1.2 = (c.garbageCollect now).1 := by
  unfold random
  dsimp only
  split <;> rfl

omit [PriorityQueue.TopChoice P ℕᵒᵈ] in
/-- What `remove` does to a keyed cache: nothing if the peer has no
announcement, and otherwise it takes that one out. -/
theorem Keyed.remove_cases {c : AnnouncementCache P} (hc : c.Keyed) (peerId : P) :
    ((c.remove peerId).1 = none ∧ (c.remove peerId).2 = c) ∨
    ∃ a, (c.remove peerId).1 = some a ∧ (c.remove peerId).2.Keyed ∧ (c.remove peerId).2.len + 1 = c.len ∧
      (c.remove peerId).2.capacity = c.capacity := by
  have hq := hc peerId
  cases ha : c.items.lookup peerId with
  | none =>
    rw [ha] at hq
    have hr : (c.priorities.remove peerId).1 = none := by rw [PriorityQueue.remove_fst, hq]; rfl
    left
    rw [remove, hr]
    exact ⟨rfl, rfl⟩
  | some a =>
    rw [ha] at hq
    have hr : (c.priorities.remove peerId).1 = some (peerId, toDual a.timestamp) := by
      rw [PriorityQueue.remove_fst, hq]
      rfl
    right
    rw [remove, hr, Option.elim_some, ha]
    exact ⟨a, rfl, hc.erase peerId (PriorityQueue.lookup_remove _ _), len_erase ha _, rfl⟩

/-- The top of a keyed queue is the oldest timestamp. -/
theorem Keyed.peekPriority {c : AnnouncementCache P} (hc : c.Keyed) :
    c.peekPriority = c.oldestTimestamp.map toDual := by
  rcases hc.pop_cases with ⟨h0, hpk, -⟩ | ⟨k, a, ha, hpk, -⟩
  · have hnil : c.items.entries = [] := List.length_eq_zero_iff.mp h0
    rw [AnnouncementCache.peekPriority, hpk, oldestTimestamp, hnil]
    rfl
  · -- the peer on top has the least timestamp of all
    have hmin : c.oldestTimestamp = some a.timestamp := by
      rw [oldestTimestamp, List.min?_eq_some_iff]
      refine ⟨List.mem_map.mpr ⟨⟨k, a⟩, AList.mem_lookup_iff.mp ha, rfl⟩, ?_⟩
      intro b hb
      obtain ⟨e, he, rfl⟩ := List.mem_map.mp hb
      have hle := (PriorityQueue.peek_spec hpk).2 e.1 (toDual e.2.timestamp)
        (by rw [hc, AList.mem_lookup_iff.mpr he]; rfl)
      exact OrderDual.toDual_le_toDual.mp hle
    rw [AnnouncementCache.peekPriority, hpk, hmin]
    rfl

theorem Keyed.oldestTimestamp_isSome {c : AnnouncementCache P} (hc : c.Keyed) (h : 0 < c.len) :
    c.oldestTimestamp.isSome := by
  have hne : c.peekPriority ≠ none := fun h' => by rw [hc.peekPriority_eq_none_iff] at h'; omega
  rw [hc.peekPriority] at hne
  exact Option.isSome_iff_ne_none.mpr fun h' => hne (by rw [h']; rfl)

theorem Inv.pop {c : AnnouncementCache P} (hc : c.Inv) : c.pop.2.Inv := by
  have := hc.keyed.len_pop_le
  have := hc.len_le
  refine ⟨hc.keyed.pop, ?_, ?_⟩
  · rw [pop_capacity]
    omega
  · rw [pop_capacity]
    exact hc.capacity_pos

theorem all_snd (c : AnnouncementCache P) (now : Nat) : (c.all now).2 = (c.garbageCollect now).2 := rfl

theorem all_collected (c : AnnouncementCache P) (now : Nat) : (c.all now).1.2 = (c.garbageCollect now).1 := rfl

end AnnouncementCache

/-- `FileCache`: the announcements of each file, the files by their oldest
announcement, and the total count. -/
structure FileCache (T P : Type) where
  config : Config
  totalAnnouncements : Nat
  files : AList (fun _ : T => AnnouncementCache P)
  priorities : PriorityQueue T ℕᵒᵈ

namespace FileCache

variable {T P : Type} [DecidableEq T] [DecidableEq P] [PriorityQueue.TopChoice T ℕᵒᵈ]
  [PriorityQueue.TopChoice P ℕᵒᵈ]

/-- `FileCache::new`. -/
def new (config : Config) : FileCache T P := ⟨config, 0, ∅, PriorityQueue.empty⟩

/-- `update_on_announcement_cache_changed`, after a file's cache lost
`removed` announcements. -/
def updateOnAnnouncementCacheChanged (c : FileCache T P) (txId : T) (removed : Nat) :
    Except Error (FileCache T P) :=
  if removed = 0 then pure c
  else if c.totalAnnouncements < removed then
    throw (.panic "assertion failed: self.total_announcements >= removed")
  else
    let c := { c with totalAnnouncements := c.totalAnnouncements - removed }
    pure <| (c.files.lookup txId).elim c fun item =>
      item.peekPriority.elim
        -- an emptied file is dropped
        { c with files := c.files.erase txId, priorities := (c.priorities.remove txId).2 }
        fun priority => { c with priorities := c.priorities.changePriority txId priority }

/-- `pop`: the oldest announcement of all, taken out. -/
def pop (c : FileCache T P) : Except Error (Option (SignedAnnounceFile P) × FileCache T P) :=
  c.priorities.peek.elim (pure (none, c)) fun top =>
    (c.files.lookup top.1).elim (pure (none, c)) fun item =>
      -- the file's cache is popped in place
      let c := { c with files := c.files.insert top.1 item.pop.2 }
      item.pop.1.elim (pure (none, c)) fun result => do
        let c ← c.updateOnAnnouncementCacheChanged top.1 1
        pure (some result, c)

/-- `insert`: the announcement, in the cache of its file, made on the first
one; then the oldest of all goes if the total is exceeded. -/
def insert (c : FileCache T P) (txId : T) (announcement : SignedAnnounceFile P) (now : Nat) :
    Except Error (FileCache T P) := do
  let item ← (c.files.lookup txId).elim
    (AnnouncementCache.new c.config.maxEntriesPerFile c.config.entryExpirationTimeSecs) pure
  if c.totalAnnouncements < item.len then
    throw (.panic "assertion failed: self.total_announcements >= item.len()")
  else
    let item' := item.insert now announcement
    let c := { c with
      files := c.files.insert txId item'
      priorities := item'.peekPriority.elim c.priorities fun priority => c.priorities.push txId priority
      totalAnnouncements := c.totalAnnouncements - item.len + item'.len }
    if c.totalAnnouncements > c.config.maxEntriesTotal then Prod.snd <$> c.pop else pure c

/-- `random`: an announcement of the file, at the position `choice` picks. -/
def random (c : FileCache T P) (txId : T) (now choice : Nat) :
    Except Error (Option (SignedAnnounceFile P) × FileCache T P) :=
  (c.files.lookup txId).elim (pure (none, c)) fun item => do
    let r := item.random now choice
    let c ← { c with files := c.files.insert txId r.2 }.updateOnAnnouncementCacheChanged txId r.1.2
    pure (r.1.1, c)

/-- `all`: the announcements of the file. -/
def all (c : FileCache T P) (txId : T) (now : Nat) :
    Except Error (Option (List (SignedAnnounceFile P)) × FileCache T P) :=
  (c.files.lookup txId).elim (pure (none, c)) fun item => do
    let r := item.all now
    let c ← { c with files := c.files.insert txId r.2 }.updateOnAnnouncementCacheChanged txId r.1.2
    pure (some r.1.1, c)

/-- `remove`: the announcement of a peer for the file. -/
def remove (c : FileCache T P) (txId : T) (peerId : P) :
    Except Error (Option (SignedAnnounceFile P) × FileCache T P) :=
  (c.files.lookup txId).elim (pure (none, c)) fun item =>
    let r := item.remove peerId
    let c := { c with files := c.files.insert txId r.2 }
    r.1.elim (pure (none, c)) fun result => do
      let c ← c.updateOnAnnouncementCacheChanged txId 1
      pure (some result, c)

/-! ### The invariant of the cache -/

/-- The invariant of the cache: the total counts the announcements of all
files, each file's cache keeps its own invariant and is not empty, and the
file queue holds exactly the files, each at its oldest timestamp. -/
structure Consistent (c : FileCache T P) : Prop where
  total : c.totalAnnouncements = AList.sumOf AnnouncementCache.len c.files
  file : ∀ txId item, c.files.lookup txId = some item → item.Inv ∧ 0 < item.len
  priority : ∀ txId,
    c.priorities.lookup txId = (c.files.lookup txId).bind fun item => item.oldestTimestamp.map toDual

omit [PriorityQueue.TopChoice T ℕᵒᵈ] [PriorityQueue.TopChoice P ℕᵒᵈ] in
theorem consistent_new (config : Config) : (new config : FileCache T P).Consistent :=
  ⟨rfl, (fun _ _ h => by cases h), fun _ => rfl⟩

omit [PriorityQueue.TopChoice T ℕᵒᵈ] [PriorityQueue.TopChoice P ℕᵒᵈ] in
/-- A cache that agrees with a consistent one away from one file is
consistent when that file's entry, its priority and the total are. -/
theorem Consistent.frame {c c' : FileCache T P} (hc : c.Consistent) (txId : T)
    (hfile : ∀ t, t ≠ txId → c'.files.lookup t = c.files.lookup t)
    (hprio : ∀ t, t ≠ txId → c'.priorities.lookup t = c.priorities.lookup t)
    (hat : ∀ item, c'.files.lookup txId = some item → item.Inv ∧ 0 < item.len)
    (hprioAt : c'.priorities.lookup txId =
      (c'.files.lookup txId).bind fun item => item.oldestTimestamp.map toDual)
    (htotal : c'.totalAnnouncements = AList.sumOf AnnouncementCache.len c'.files) : c'.Consistent where
  total := htotal
  file t item h := by
    by_cases ht : t = txId
    · subst ht
      exact hat item h
    · rw [hfile t ht] at h
      exact hc.file t item h
  priority t := by
    by_cases ht : t = txId
    · subst ht
      exact hprioAt
    · rw [hprio t ht, hfile t ht]
      exact hc.priority t

omit [PriorityQueue.TopChoice T ℕᵒᵈ] [PriorityQueue.TopChoice P ℕᵒᵈ] in
/-- A file's cache that keeps its invariant and is not empty, put in place
with its oldest timestamp in the file queue and its length in the total. -/
theorem Consistent.setFile {c : FileCache T P} (hc : c.Consistent) {txId : T} {item : AnnouncementCache P}
    (hinv : item.Inv) (hpos : 0 < item.len) {q : PriorityQueue T ℕᵒᵈ}
    (hq : ∀ t, q.lookup t = if t = txId then item.oldestTimestamp.map toDual else c.priorities.lookup t)
    {total : Nat} (htotal : total = item.len + AList.sumOf AnnouncementCache.len (c.files.erase txId)) :
    Consistent { c with files := c.files.insert txId item, priorities := q, totalAnnouncements := total } := by
  refine hc.frame txId (fun t ht => AList.lookup_insert_ne ht) (fun t ht => by rw [hq, if_neg ht])
    (fun item' h => ?_) ?_ ?_
  · have : item = item' := Option.some.inj ((AList.lookup_insert c.files).symm.trans h)
    subst this
    exact ⟨hinv, hpos⟩
  · show q.lookup txId = (AList.lookup txId (c.files.insert txId item)).bind _
    rw [hq, if_pos rfl, AList.lookup_insert]
    rfl
  · show total = AList.sumOf _ (c.files.insert txId item)
    rw [AList.sumOf_insert, htotal]

omit [PriorityQueue.TopChoice T ℕᵒᵈ] [PriorityQueue.TopChoice P ℕᵒᵈ] in
/-- A file's cache written back as it was. -/
theorem Consistent.writeBack {c : FileCache T P} (hc : c.Consistent) {txId : T} {item : AnnouncementCache P}
    (hitem : c.files.lookup txId = some item) : Consistent { c with files := c.files.insert txId item } := by
  obtain ⟨hinv, hpos⟩ := hc.file txId item hitem
  refine hc.setFile hinv hpos (fun t => ?_) ?_
  · split
    · rename_i ht
      rw [ht, hc.priority, hitem]
      rfl
    · rfl
  · rw [hc.total, AList.sumOf_of_lookup _ hitem]

omit [PriorityQueue.TopChoice T ℕᵒᵈ] [PriorityQueue.TopChoice P ℕᵒᵈ] in
/-- An emptied file dropped from the files and from the file queue. -/
theorem Consistent.dropFile {c : FileCache T P} (hc : c.Consistent) (txId : T)
    {files' : AList fun _ : T => AnnouncementCache P}
    (hfiles : ∀ t, files'.lookup t = if t = txId then none else c.files.lookup t)
    {total : Nat} (htotal : total = AList.sumOf AnnouncementCache.len files') :
    Consistent { c with files := files', priorities := (c.priorities.remove txId).2, totalAnnouncements := total } := by
  have hnone : files'.lookup txId = none := by rw [hfiles, if_pos rfl]
  refine hc.frame txId (fun t ht => by rw [hfiles, if_neg ht])
    (fun t ht => by rw [PriorityQueue.lookup_remove, if_neg ht]) (fun item h => ?_) ?_ htotal
  · cases hnone.symm.trans h
  · show (c.priorities.remove txId).2.lookup txId = (files'.lookup txId).bind _
    rw [PriorityQueue.lookup_remove, if_pos rfl, hnone]
    rfl

omit [PriorityQueue.TopChoice T ℕᵒᵈ] in
/-- `update_on_announcement_cache_changed` after a file's cache, written
back, lost `removed` announcements and kept its invariant: no panic, and the
cache is consistent again with the total lowered by `removed`. -/
theorem Consistent.update {c : FileCache T P} (hc : c.Consistent) {txId : T} {item item' : AnnouncementCache P}
    (hitem : c.files.lookup txId = some item) (hinv : item'.Inv) {removed : Nat}
    (hlen : item'.len + removed = item.len) (hsame : removed = 0 → item' = item) :
    ∃ c', { c with files := c.files.insert txId item' }.updateOnAnnouncementCacheChanged txId removed = .ok c' ∧
      c'.Consistent ∧ c'.totalAnnouncements + removed = c.totalAnnouncements ∧ c'.config = c.config := by
  have hsum := AList.sumOf_of_lookup AnnouncementCache.len hitem
  have htot := hc.total
  by_cases h0 : removed = 0
  · -- nothing went: the entry is written back as it was
    obtain rfl := hsame h0
    subst h0
    exact ⟨_, if_pos rfl, hc.writeBack hitem, rfl, rfl⟩
  have hle : ¬ c.totalAnnouncements < removed := by omega
  have hsum' : AList.sumOf AnnouncementCache.len ((c.files.insert txId item').erase txId) =
      AList.sumOf AnnouncementCache.len (c.files.erase txId) := by
    have h₁ := AList.sumOf_of_lookup AnnouncementCache.len (AList.lookup_insert (a := txId) (b := item') c.files)
    rw [AList.sumOf_insert] at h₁
    omega
  cases hp : item'.peekPriority with
  | none =>
    -- the file's cache is empty now, and the file goes
    have h0' : item'.len = 0 := hinv.keyed.peekPriority_eq_none_iff.mp hp
    refine ⟨{ c with
        files := (c.files.insert txId item').erase txId
        priorities := (c.priorities.remove txId).2
        totalAnnouncements := c.totalAnnouncements - removed }, ?_, hc.dropFile txId (fun t => ?_) ?_, by dsimp only; omega,
      rfl⟩
    · rw [updateOnAnnouncementCacheChanged, if_neg h0, if_neg hle]
      dsimp only
      rw [AList.lookup_insert, Option.elim_some, hp]
      rfl
    · split
      · rename_i ht
        rw [ht, AList.lookup_erase]
      · rename_i ht
        rw [AList.lookup_erase_ne ht, AList.lookup_insert_ne ht]
    · show c.totalAnnouncements - removed = _
      rw [hsum']
      omega
  | some priority =>
    -- the file's cache moves in the file queue to its new oldest timestamp
    have hpos : 0 < item'.len := Nat.pos_of_ne_zero fun h => by
      rw [← hinv.keyed.peekPriority_eq_none_iff] at h
      rw [h] at hp
      cases hp
    obtain ⟨hinvI, hposI⟩ := hc.file txId item hitem
    obtain ⟨ts, hts⟩ := Option.isSome_iff_exists.mp (hinvI.keyed.oldestTimestamp_isSome hposI)
    have hq : ∀ t, (c.priorities.changePriority txId priority).lookup t =
        if t = txId then item'.oldestTimestamp.map toDual else c.priorities.lookup t := by
      intro t
      rw [PriorityQueue.lookup_changePriority, hc.priority, hitem, Option.bind_some, hts, ← hinv.keyed.peekPriority, hp]
      rfl
    refine ⟨_, ?_, hc.setFile hinv hpos hq (by show c.totalAnnouncements - removed = _; omega),
      by dsimp only; omega, rfl⟩
    rw [updateOnAnnouncementCacheChanged, if_neg h0, if_neg hle]
    dsimp only
    rw [AList.lookup_insert, Option.elim_some, hp]
    rfl

/-- `pop` keeps the cache consistent and takes one announcement off the
total, if there is one. -/
theorem Consistent.pop {c : FileCache T P} (hc : c.Consistent) :
    ∃ r c', c.pop = .ok (r, c') ∧ c'.Consistent ∧ c'.totalAnnouncements = c.totalAnnouncements - 1 ∧
      c'.config = c.config := by
  cases hpk : c.priorities.peek with
  | none =>
    -- no file is in the queue, so none is cached
    have hnone : ∀ t, c.files.lookup t = none := by
      intro t
      have hp := hc.priority t
      rw [PriorityQueue.peek_eq_none_iff.mp hpk t] at hp
      cases hf : c.files.lookup t with
      | none => rfl
      | some item =>
        obtain ⟨hinv, hpos⟩ := hc.file t item hf
        obtain ⟨ts, hts⟩ := Option.isSome_iff_exists.mp (hinv.keyed.oldestTimestamp_isSome hpos)
        rw [hf, Option.bind_some, hts] at hp
        cases hp
    have hzero : c.totalAnnouncements = 0 := by
      rw [hc.total, AList.sumOf, AList.entries_eq_nil_iff.mpr hnone]
      rfl
    refine ⟨none, c, ?_, hc, by omega, rfl⟩
    rw [FileCache.pop, hpk]
    rfl
  | some top =>
    obtain ⟨txId, pr⟩ := top
    -- the file on top is cached, and its oldest announcement goes
    have hp := hc.priority txId
    rw [(PriorityQueue.peek_spec hpk).1] at hp
    obtain ⟨item, hitem, -⟩ := Option.bind_eq_some_iff.mp hp.symm
    obtain ⟨hinv, hpos⟩ := hc.file txId item hitem
    obtain ⟨a, ha, hlen⟩ := hinv.keyed.pop_of_pos hpos
    obtain ⟨c', hc', hcons, htot, hcfg⟩ := hc.update hitem hinv.pop hlen (fun h => absurd h Nat.one_ne_zero)
    refine ⟨some a, c', ?_, hcons, by omega, hcfg⟩
    rw [FileCache.pop, hpk, Option.elim_some, hitem, Option.elim_some]
    dsimp only
    rw [ha, Option.elim_some, hc']
    rfl

omit [PriorityQueue.TopChoice T ℕᵒᵈ] [PriorityQueue.TopChoice P ℕᵒᵈ] in
/-- The cache of a file as `insert` finds it, its own or a new one, keeps
the invariant, and its length is part of the total. -/
theorem Consistent.entry {c : FileCache T P} (hc : c.Consistent) (txId : T)
    (hnew : (c.files.lookup txId).isSome ∨ 0 < c.config.maxEntriesPerFile) :
    ∃ item, (c.files.lookup txId).elim
        (AnnouncementCache.new c.config.maxEntriesPerFile c.config.entryExpirationTimeSecs) pure = .ok item ∧
      item.Inv ∧ c.totalAnnouncements = item.len + AList.sumOf AnnouncementCache.len (c.files.erase txId) := by
  cases hf : c.files.lookup txId with
  | none =>
    have hpos : 0 < c.config.maxEntriesPerFile := by
      rw [hf] at hnew
      simpa using hnew
    obtain ⟨hinv, h0⟩ := AnnouncementCache.inv_of_new_eq_ok (AnnouncementCache.new_ok (P := P) hpos)
    refine ⟨_, AnnouncementCache.new_ok hpos, hinv, ?_⟩
    rw [h0, AList.erase_of_lookup_eq_none hf, hc.total, Nat.zero_add]
  | some item =>
    exact ⟨item, rfl, (hc.file txId item hf).1, by rw [hc.total, AList.sumOf_of_lookup _ hf]⟩

/-- `insert` panics only on a new file's cache of no capacity. -/
theorem isSome_or_pos_of_insert_eq_ok {c c' : FileCache T P} {txId : T} {announcement : SignedAnnounceFile P}
    {now : Nat} (h : c.insert txId announcement now = .ok c') :
    (c.files.lookup txId).isSome ∨ 0 < c.config.maxEntriesPerFile := by
  cases hf : c.files.lookup txId with
  | some _ => exact .inl rfl
  | none =>
    refine .inr (Nat.pos_of_ne_zero fun hcap => ?_)
    simp only [FileCache.insert, hf, Option.elim_none, AnnouncementCache.new, hcap, gt_iff_lt, Nat.lt_irrefl,
      if_false, Except.throw_eq_error, Except.error_bind] at h
    cases h

/-- `insert` keeps the cache consistent and within `max_entries_total`. -/
theorem Consistent.insert {c : FileCache T P} (hc : c.Consistent)
    (hmax : c.totalAnnouncements ≤ c.config.maxEntriesTotal) (txId : T) (announcement : SignedAnnounceFile P)
    (now : Nat) (hnew : (c.files.lookup txId).isSome ∨ 0 < c.config.maxEntriesPerFile) :
    ∃ c', c.insert txId announcement now = .ok c' ∧ c'.Consistent ∧
      c'.totalAnnouncements ≤ c'.config.maxEntriesTotal ∧ c'.config = c.config := by
  obtain ⟨item, hitem, hinv, htot⟩ := hc.entry txId hnew
  obtain ⟨hinv', hpos', hlen'⟩ := hinv.insert now announcement
  generalize hitem' : item.insert now announcement = item' at hinv' hpos' hlen'
  -- the file's cache goes into the file queue at its oldest timestamp
  obtain ⟨ts, hts⟩ := Option.isSome_iff_exists.mp (hinv'.keyed.oldestTimestamp_isSome hpos')
  have hpeek : item'.peekPriority = some (toDual ts) := by
    rw [hinv'.keyed.peekPriority, hts]
    rfl
  have hc₁ : Consistent { c with
      files := c.files.insert txId item'
      priorities := c.priorities.push txId (toDual ts)
      totalAnnouncements := c.totalAnnouncements - item.len + item'.len } :=
    hc.setFile hinv' hpos' (fun t => by rw [PriorityQueue.lookup_push, hts]; rfl) (by omega)
  have hins : c.insert txId announcement now =
      if c.totalAnnouncements - item.len + item'.len > c.config.maxEntriesTotal then
        Prod.snd <$> FileCache.pop { c with
          files := c.files.insert txId item'
          priorities := c.priorities.push txId (toDual ts)
          totalAnnouncements := c.totalAnnouncements - item.len + item'.len }
      else pure { c with
          files := c.files.insert txId item'
          priorities := c.priorities.push txId (toDual ts)
          totalAnnouncements := c.totalAnnouncements - item.len + item'.len } := by
    rw [FileCache.insert, hitem, Except.ok_bind, if_neg (by omega)]
    dsimp only
    rw [hitem', hpeek, Option.elim_some]
  by_cases hover : c.totalAnnouncements - item.len + item'.len > c.config.maxEntriesTotal
  · -- over the total: the oldest announcement of all goes
    obtain ⟨r, c', hpop, hcons, htot', hcfg⟩ := hc₁.pop
    refine ⟨c', ?_, hcons, ?_, hcfg⟩
    · rw [hins, if_pos hover, hpop]
      rfl
    · rw [hcfg, htot']
      show c.totalAnnouncements - item.len + item'.len - 1 ≤ c.config.maxEntriesTotal
      omega
  · refine ⟨_, by rw [hins, if_neg hover]; rfl, hc₁, ?_, rfl⟩
    show c.totalAnnouncements - item.len + item'.len ≤ c.config.maxEntriesTotal
    omega

omit [PriorityQueue.TopChoice T ℕᵒᵈ] in
/-- A read that collects a file's expired announcements: the cache stays
consistent, and the total can only go down. -/
theorem Consistent.collect {c : FileCache T P} (hc : c.Consistent) {txId : T} {item : AnnouncementCache P}
    (hitem : c.files.lookup txId = some item) (now : Nat) :
    ∃ c', { c with files := c.files.insert txId (item.garbageCollect now).2 }.updateOnAnnouncementCacheChanged
        txId (item.garbageCollect now).1 = .ok c' ∧
      c'.Consistent ∧ c'.totalAnnouncements ≤ c.totalAnnouncements ∧ c'.config = c.config := by
  obtain ⟨hinv', hlen, hsame⟩ := (hc.file txId item hitem).1.garbageCollect now
  obtain ⟨c', hc', hcons, htot, hcfg⟩ := hc.update hitem hinv' hlen hsame
  exact ⟨c', hc', hcons, by omega, hcfg⟩

omit [PriorityQueue.TopChoice T ℕᵒᵈ] in
theorem Consistent.random {c : FileCache T P} (hc : c.Consistent) (txId : T) (now choice : Nat) :
    ∃ r c', c.random txId now choice = .ok (r, c') ∧ c'.Consistent ∧
      c'.totalAnnouncements ≤ c.totalAnnouncements ∧ c'.config = c.config := by
  cases hitem : c.files.lookup txId with
  | none => exact ⟨none, c, by rw [FileCache.random, hitem]; rfl, hc, le_rfl, rfl⟩
  | some item =>
    obtain ⟨c', hc', hcons, htot, hcfg⟩ := hc.collect hitem now
    refine ⟨(item.random now choice).1.1, c', ?_, hcons, htot, hcfg⟩
    rw [FileCache.random, hitem, Option.elim_some]
    dsimp only
    rw [AnnouncementCache.random_snd, AnnouncementCache.random_collected, hc']
    rfl

omit [PriorityQueue.TopChoice T ℕᵒᵈ] in
theorem Consistent.all {c : FileCache T P} (hc : c.Consistent) (txId : T) (now : Nat) :
    ∃ r c', c.all txId now = .ok (r, c') ∧ c'.Consistent ∧
      c'.totalAnnouncements ≤ c.totalAnnouncements ∧ c'.config = c.config := by
  cases hitem : c.files.lookup txId with
  | none => exact ⟨none, c, by rw [FileCache.all, hitem]; rfl, hc, le_rfl, rfl⟩
  | some item =>
    obtain ⟨c', hc', hcons, htot, hcfg⟩ := hc.collect hitem now
    refine ⟨some (item.all now).1.1, c', ?_, hcons, htot, hcfg⟩
    rw [FileCache.all, hitem, Option.elim_some]
    dsimp only
    rw [AnnouncementCache.all_snd, AnnouncementCache.all_collected, hc']
    rfl

omit [PriorityQueue.TopChoice T ℕᵒᵈ] in
theorem Consistent.remove {c : FileCache T P} (hc : c.Consistent) (txId : T) (peerId : P) :
    ∃ r c', c.remove txId peerId = .ok (r, c') ∧ c'.Consistent ∧
      c'.totalAnnouncements ≤ c.totalAnnouncements ∧ c'.config = c.config := by
  cases hitem : c.files.lookup txId with
  | none => exact ⟨none, c, by rw [FileCache.remove, hitem]; rfl, hc, le_rfl, rfl⟩
  | some item =>
    obtain ⟨hinv, -⟩ := hc.file txId item hitem
    rcases hinv.keyed.remove_cases peerId with ⟨hnone, hsame⟩ | ⟨a, ha, hk, hlen, hcap⟩
    · -- the peer has no announcement there: the entry is written back as it was
      refine ⟨none, _, ?_, hc.writeBack hitem, le_rfl, rfl⟩
      rw [FileCache.remove, hitem, Option.elim_some]
      dsimp only
      rw [hnone, hsame]
      rfl
    · have hinv' : (item.remove peerId).2.Inv :=
        ⟨hk, by have := hinv.len_le; omega, by rw [hcap]; exact hinv.capacity_pos⟩
      obtain ⟨c', hc', hcons, htot, hcfg⟩ := hc.update hitem hinv' hlen (fun h => absurd h Nat.one_ne_zero)
      refine ⟨some a, c', ?_, hcons, by omega, hcfg⟩
      rw [FileCache.remove, hitem, Option.elim_some]
      dsimp only
      rw [ha, Option.elim_some, hc']
      rfl

end FileCache

/-- A call on the cache, with its arguments and the clock value it reads. -/
inductive Op (T P : Type)
  | insert (txId : T) (announcement : SignedAnnounceFile P) (now : Nat)
  | pop
  | random (txId : T) (now choice : Nat)
  | all (txId : T) (now : Nat)
  | remove (txId : T) (peerId : P)

variable {T P : Type} [DecidableEq T] [DecidableEq P] [PriorityQueue.TopChoice T ℕᵒᵈ]
  [PriorityQueue.TopChoice P ℕᵒᵈ]

/-- The cache after a call. -/
def Op.run : Op T P → FileCache T P → Except Error (FileCache T P)
  | .insert txId announcement now, c => c.insert txId announcement now
  | .pop, c => Prod.snd <$> c.pop
  | .random txId now choice, c => Prod.snd <$> c.random txId now choice
  | .all txId now, c => Prod.snd <$> c.all txId now
  | .remove txId peerId, c => Prod.snd <$> c.remove txId peerId

/-- The cache after a run of calls. -/
def runOps (c : FileCache T P) (ops : List (Op T P)) : Except Error (FileCache T P) :=
  ops.foldlM (fun c op => op.run c) c

/-! ### Runs of calls -/

/-- A call that returns a consistent cache with no more announcements and the
same configuration. -/
theorem FileCache.run_of_lowering {c c'' : FileCache T P} {op : Op T P}
    (hmax : c.totalAnnouncements ≤ c.config.maxEntriesTotal) (hrun : op.run c = .ok c'')
    (hcons : c''.Consistent) (htot : c''.totalAnnouncements ≤ c.totalAnnouncements) (hcfg : c''.config = c.config) :
    (∀ c', op.run c = .ok c' →
      c'.Consistent ∧ c'.totalAnnouncements ≤ c'.config.maxEntriesTotal ∧ c'.config = c.config) ∧
    (0 < c.config.maxEntriesPerFile → ∃ c', op.run c = .ok c') := by
  refine ⟨fun c' h => ?_, fun _ => ⟨c'', hrun⟩⟩
  rw [hrun] at h
  cases h
  exact ⟨hcons, by rw [hcfg]; omega, hcfg⟩

/-- One call from a consistent cache within its total: the cache stays
consistent and within its total, with its configuration, and the call does
not panic when each file may hold an announcement. -/
theorem FileCache.Consistent.run_step {c : FileCache T P} (hc : c.Consistent)
    (hmax : c.totalAnnouncements ≤ c.config.maxEntriesTotal) (op : Op T P) :
    (∀ c', op.run c = .ok c' →
      c'.Consistent ∧ c'.totalAnnouncements ≤ c'.config.maxEntriesTotal ∧ c'.config = c.config) ∧
    (0 < c.config.maxEntriesPerFile → ∃ c', op.run c = .ok c') := by
  cases op with
  | insert txId announcement now =>
    refine ⟨fun c' h => ?_, fun hpos => ?_⟩
    · obtain ⟨c'', h'', hcons, htot, hcfg⟩ :=
        hc.insert hmax txId announcement now (FileCache.isSome_or_pos_of_insert_eq_ok h)
      rw [Op.run, h''] at h
      cases h
      exact ⟨hcons, htot, hcfg⟩
    · obtain ⟨c'', h'', -⟩ := hc.insert hmax txId announcement now (.inr hpos)
      exact ⟨c'', h''⟩
  | pop =>
    obtain ⟨r, c'', h'', hcons, htot, hcfg⟩ := hc.pop
    exact FileCache.run_of_lowering hmax (by rw [Op.run, h'']; rfl) hcons (by omega) hcfg
  | random txId now choice =>
    obtain ⟨r, c'', h'', hcons, htot, hcfg⟩ := hc.random txId now choice
    exact FileCache.run_of_lowering hmax (by rw [Op.run, h'']; rfl) hcons htot hcfg
  | all txId now =>
    obtain ⟨r, c'', h'', hcons, htot, hcfg⟩ := hc.all txId now
    exact FileCache.run_of_lowering hmax (by rw [Op.run, h'']; rfl) hcons htot hcfg
  | remove txId peerId =>
    obtain ⟨r, c'', h'', hcons, htot, hcfg⟩ := hc.remove txId peerId
    exact FileCache.run_of_lowering hmax (by rw [Op.run, h'']; rfl) hcons htot hcfg

/-- Every run of calls from a consistent cache within its total: by
induction on the calls, with `run_step` for each. -/
theorem FileCache.Consistent.run_ops {c : FileCache T P} (hc : c.Consistent)
    (hmax : c.totalAnnouncements ≤ c.config.maxEntriesTotal) (ops : List (Op T P)) :
    (∀ c', runOps c ops = .ok c' →
      c'.Consistent ∧ c'.totalAnnouncements ≤ c'.config.maxEntriesTotal ∧ c'.config = c.config) ∧
    (0 < c.config.maxEntriesPerFile → ∃ c', runOps c ops = .ok c') := by
  induction ops generalizing c with
  | nil => exact ⟨fun c' h => by cases h; exact ⟨hc, hmax, rfl⟩, fun _ => ⟨c, rfl⟩⟩
  | cons op ops ih =>
    have hstep := hc.run_step hmax op
    have hrun : ∀ c', runOps c (op :: ops) = .ok c' ↔ ∃ c₁, op.run c = .ok c₁ ∧ runOps c₁ ops = .ok c' :=
      fun c' => by rw [runOps, List.foldlM_cons]; exact Except.bind_eq_ok
    refine ⟨fun c' h => ?_, fun hpos => ?_⟩
    · obtain ⟨c₁, h₁, h₂⟩ := (hrun c').mp h
      obtain ⟨hc₁, hmax₁, hcfg₁⟩ := hstep.1 c₁ h₁
      obtain ⟨hc', hmax', hcfg'⟩ := (ih hc₁ hmax₁).1 c' h₂
      exact ⟨hc', hmax', hcfg'.trans hcfg₁⟩
    · obtain ⟨c₁, h₁⟩ := hstep.2 hpos
      obtain ⟨hc₁, hmax₁, hcfg₁⟩ := hstep.1 c₁ h₁
      obtain ⟨c', h'⟩ := (ih hc₁ hmax₁).2 (by rw [hcfg₁]; exact hpos)
      exact ⟨c', (hrun c').mpr ⟨c₁, h₁, h'⟩⟩

/-- The representation invariant of the cache over every run of calls from
a new one: each cache a run returns is consistent and within
`max_entries_total`, and a run returns one whenever a file may hold an
announcement. -/
theorem runOps_consistent (config : Config) (ops : List (Op T P)) :
    (∀ c, runOps (FileCache.new config) ops = .ok c →
      c.Consistent ∧ c.totalAnnouncements ≤ c.config.maxEntriesTotal) ∧
    (0 < config.maxEntriesPerFile → ∃ c, runOps (FileCache.new config) ops = .ok c) := by
  have h := (FileCache.consistent_new (T := T) (P := P) config).run_ops (Nat.zero_le _) ops
  exact ⟨fun c hc => ⟨(h.1 c hc).1, (h.1 c hc).2.1⟩, h.2⟩

theorem runOps_consistent_oneInsert :
    0 < (⟨2, 1, 60⟩ : Config).maxEntriesPerFile ∧ ∃ c : FileCache Nat Nat,
      runOps (FileCache.new ⟨2, 1, 60⟩) [.insert 0 ⟨7, 100⟩ 100] = .ok c ∧
        c.Consistent ∧ c.totalAnnouncements ≤ c.config.maxEntriesTotal := by
  obtain ⟨c, hc⟩ := (runOps_consistent (T := Nat) (P := Nat) ⟨2, 1, 60⟩ [.insert 0 ⟨7, 100⟩ 100]).2 (by decide)
  exact ⟨by decide, c, hc, (runOps_consistent ⟨2, 1, 60⟩ [.insert 0 ⟨7, 100⟩ 100]).1 c hc⟩

/-- Three files of one announcement each, over a total of two: the third
insert evicts the oldest. -/
example : ((runOps (FileCache.new ⟨2, 2, 60⟩ : FileCache Nat Nat)
    [.insert 0 ⟨7, 100⟩ 100, .insert 1 ⟨8, 110⟩ 110, .insert 2 ⟨9, 120⟩ 120]).toOption.map
      fun c => (c.totalAnnouncements, c.files.keys)) = some (2, [2, 1]) := by
  decide

end ZgStorage.FileLocationCache
