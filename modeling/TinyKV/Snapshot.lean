import TinyKV.Persistence

/-!
# Snapshots: dump and load

A dump has one `SET key value` line for each pair, and `load` takes the lines that the parser
takes. A pair comes back exactly when its line is at most `kMaxLineLength` bytes long (`Fits`).
A client can store a pair that does not fit: `INCR` on an 8187-byte key is a line of 8192 bytes,
while the dump needs `SET`, the key and the value.

* `applyAll_dumpLines`: what the lines of a dump do to a map.
* `load_save_lookup`: the pairs that a snapshot brings back.
* `snapshot_roundTrip_iff`: the round trip of every reachable store.
* `load_save_entries`: `save` walks the list from the front and `load` puts each pair in front, so
  the pairs come back in the reverse order, and the next key to be evicted is the one used last.
-/

namespace TinyKV

open Cpp Recency Text SnapshotManager

/-! ## Pairs that fit in a line -/

/-- The line of the pair is not too long for the parser. -/
def Fits (key value : Bytes) : Prop := key.length + value.length + 5 ≤ kMaxLineLength

instance (key value : Bytes) : Decidable (Fits key value) := inferInstanceAs (Decidable (_ ≤ _))

/-- The line of every pair is short enough. -/
def FitEntries (es : List (Bytes × Bytes)) : Prop := ∀ k v, (k, v) ∈ es → Fits k v

instance (es : List (Bytes × Bytes)) : Decidable (FitEntries es) :=
  decidable_of_iff (∀ e ∈ es, Fits e.1 e.2) ⟨fun h k v hm => h (k, v) hm, fun h e hm => h e.1 e.2 hm⟩

theorem lineEffects_setLine {k v : Bytes} (hk : IsWord isspace k) (hv : IsWord isspace v) :
    lineEffects (setLine k v) = if Fits k v then [(k, .assign (some v))] else [] := by
  unfold lineEffects
  split
  · rename_i e he
    rw [if_neg]
    intro hfit
    rw [parse_setLine hk hv hfit] at he
    cases he
  · rename_i cmd hp
    have hlen : Fits k v := by
      rw [Fits, ← length_setLine]
      exact (parse_eq_ok.mp hp).1
    rw [if_pos hlen]
    rw [parse_setLine hk hv hlen] at hp
    cases hp
    rfl

/-! ## Dumps -/

theorem newline_not_mem_dumpLines {es : List (Bytes × Bytes)} (hw : WordEntries es) :
    ∀ l ∈ dumpLines es, newline ∉ l := by
  intro l hl
  obtain ⟨⟨k, v⟩, hm, rfl⟩ := List.mem_map.mp hl
  exact newline_not_mem_setLine (hw k v hm).1 (hw k v hm).2

/-- The lines of a snapshot are the lines of the dump. -/
theorem getlines_save {store : Store} (hw : WordEntries store.entries) :
    getlines newline (SnapshotManager.save store) = dumpLines store.entries :=
  getlines_unlines (newline_not_mem_dumpLines hw)

/-- What the lines of a dump do to a map: they bind the pairs that fit. -/
theorem applyAll_dumpLines {es : List (Bytes × Bytes)} (hu : UniqueKeys es) (hw : WordEntries es)
    (m : KvMap) (x : Bytes) :
    applyAll m ((dumpLines es).flatMap lineEffects) x =
      match find x es with
      | none => m x
      | some v => if Fits x v then some v else m x := by
  induction es generalizing m with
  | nil => rfl
  | cons e es ih =>
    obtain ⟨k, v⟩ := e
    obtain ⟨hk, hv⟩ := hw k v List.mem_cons_self
    obtain ⟨hnot, hu'⟩ := List.nodup_cons.mp hu
    have hrest := ih hu' fun k' v' hm => hw k' v' (List.mem_cons_of_mem _ hm)
    simp only [dumpLines, List.map_cons, List.flatMap_cons] at hrest ⊢
    rw [applyAll, Keyed.run_append, lineEffects_setLine hk hv]
    refine (hrest _).trans ?_
    rw [find_cons]
    by_cases hx : x = k
    · -- The key of the first pair: no later line of the dump is on it.
      subst hx
      rw [find_eq_none.mpr hnot, if_pos rfl]
      by_cases hfit : Fits x v <;> simp [hfit, Keyed.step, KeyOp.app]
    · rw [if_neg hx]
      have hm : Keyed.run KeyOp.app m (if Fits k v then [(k, .assign (some v))] else []) x =
          m x := by
        by_cases hfit : Fits k v
        · simp [hfit, Keyed.step, Function.update_of_ne hx]
        · simp [hfit]
      rw [hm]

/-- The lines of a dump whose pairs all fit bind its pairs and leave the other keys. -/
theorem applyAll_dumpLines_of_fit {es : List (Bytes × Bytes)} (hu : UniqueKeys es)
    (hw : WordEntries es) (hfit : FitEntries es) (m : KvMap) (x : Bytes) :
    applyAll m ((dumpLines es).flatMap lineEffects) x = (find x es).or (m x) := by
  rw [applyAll_dumpLines hu hw]
  cases hf : find x es with
  | none => rfl
  | some v => exact if_pos (hfit x v (mem_of_find hf))

/-- What a snapshot brings back: the pairs that fit. -/
theorem load_save_lookup {store : Store} (hw : WordEntries store.entries) (w : Wiring)
    (clock : Nat → Now) (x : Bytes) :
    (load w clock (SnapshotManager.save store) (Db.empty 0)).store.lookup x =
      match store.lookup x with
      | none => none
      | some v => if Fits x v then some v else none := by
  rw [load, getlines_save hw, replayLines_lookup rfl, applyAll_dumpLines store.unique hw]
  rfl

/-! ## Reachable stores -/

theorem replayLine_words {db : Db} (h : WordEntries db.store.entries) (w : Wiring) (now : Now)
    (line : Bytes) : WordEntries (replayLine w now db line).store.entries := by
  unfold replayLine
  split
  · exact h
  · split
    · exact h
    · rename_i cmd hp
      rw [execute_entries]
      exact onEntries_words (fun a ha => args_isWord hp ha) _ h

/-- The keys and values of a store that lines have built are words. -/
theorem replayLines_words {db : Db} (h : WordEntries db.store.entries) (w : Wiring)
    (clock : Nat → Now) (lines : List Bytes) :
    WordEntries (replayLines w clock db lines).store.entries := by
  induction lines generalizing clock db with
  | nil => exact h
  | cons line lines ih => exact ih (replayLine_words h w (clock 0) line) _

theorem wordEntries_empty (c : Nat) : WordEntries (Db.empty c).store.entries := by
  intro k v hm
  cases hm

/-- A line of a dump parses exactly if its pair fits, and then to `SET key value`. -/
theorem parse_dumpLine_iff {es : List (Bytes × Bytes)} (hw : WordEntries es) :
    (∀ l ∈ dumpLines es, ∃ k v, parse l = .ok ⟨.SET, ascii "SET", [k, v]⟩) ↔ FitEntries es := by
  constructor
  · intro h k v hm
    obtain ⟨k', v', hp⟩ := h (setLine k v) (List.mem_map.mpr ⟨(k, v), hm, rfl⟩)
    rw [Fits, ← length_setLine]
    exact (parse_eq_ok.mp hp).1
  · intro hfit l hl
    obtain ⟨⟨k, v⟩, hm, rfl⟩ := List.mem_map.mp hl
    exact ⟨k, v, parse_setLine (hw k v hm).1 (hw k v hm).2 (hfit k v hm)⟩

/-- **Snapshot round trip.** A store of any capacity that lines have built comes back from its
snapshot, with every line of it read as `SET key value`, exactly if each pair fits in a line. -/
theorem snapshot_roundTrip_iff (c : Nat) (w : Wiring) (clock clock' : Nat → Now)
    (lines : List Bytes) :
    ((load w clock' (SnapshotManager.save (replayLines w clock (Db.empty c) lines).store)
          (Db.empty 0)).store.lookup = (replayLines w clock (Db.empty c) lines).store.lookup ∧
      ∀ l ∈ getlines newline (SnapshotManager.save (replayLines w clock (Db.empty c) lines).store),
        ∃ k v, parse l = .ok ⟨.SET, ascii "SET", [k, v]⟩) ↔
    FitEntries (replayLines w clock (Db.empty c) lines).store.entries := by
  have hw := replayLines_words (wordEntries_empty c) w clock lines
  generalize (replayLines w clock (Db.empty c) lines).store = store at hw ⊢
  rw [getlines_save hw, parse_dumpLine_iff hw]
  refine ⟨fun h => h.2, fun hfit => ⟨?_, hfit⟩⟩
  funext x
  rw [load_save_lookup hw]
  cases hx : store.lookup x with
  | none => rfl
  | some v => exact if_pos (hfit x v (mem_of_find hx))

/-- `INCR key`. -/
def incrLine (key : Bytes) : Bytes := ascii "INCR " ++ key

theorem parse_incrLine {key : Bytes} (hk : IsWord isspace key)
    (hlen : key.length + 5 ≤ kMaxLineLength) :
    parse (incrLine key) = .ok ⟨.INCR, ascii "INCR", [key]⟩ := by
  have hincr : IsWord isspace (ascii "INCR") := by decide
  have h5 : (ascii "INCR ").length = 5 := by decide
  have e : incrLine key = ascii "INCR" ++ 32 :: key := by
    rw [incrLine, show ascii "INCR " = ascii "INCR" ++ [32] by decide, List.append_assoc,
      List.singleton_append]
  refine parse_eq_ok.mpr ⟨?_, ascii "INCR", [key], ?_, rfl⟩
  · rw [incrLine, List.length_append, h5]
    omega
  · rw [e, tokenize, hincr.words_append (by decide), hk.words_eq]

/-- `INCR` on a fresh store counts to one. -/
theorem replay_incrLine {key : Bytes} (hk : IsWord isspace key)
    (hlen : key.length + 5 ≤ kMaxLineLength) (w : Wiring) (clock : Nat → Now) :
    (replayLines w clock (Db.empty 0) [incrLine key]).store.lookup key = some (ascii "1") := by
  have heff : lineEffects (incrLine key) = [(key, .bump 1)] := by
    unfold lineEffects
    rw [parse_incrLine hk hlen]
    rfl
  have hone : KeyOp.app (.bump 1) none = some (ascii "1") := by decide
  have hnone : (Db.empty 0).store.lookup key = none := rfl
  rw [replayLines_lookup rfl, List.flatMap_singleton, heff, applyAll, Keyed.run_cons, Keyed.run_nil,
    Keyed.step, Function.update_self, hnone, hone]

/-- One `INCR` on an 8187-byte key is lost: its line in the snapshot does not parse. -/
theorem snapshot_drops_long_counter :
    ¬ ∀ (w : Wiring) (clock clock' : Nat → Now) (lines : List Bytes),
      (∀ l ∈ lines, ∃ cmd, parse l = .ok cmd) →
      (load w clock' (SnapshotManager.save (replayLines w clock (Db.empty 0) lines).store)
          (Db.empty 0)).store.lookup = (replayLines w clock (Db.empty 0) lines).store.lookup ∧
      ∀ l ∈ getlines newline (SnapshotManager.save (replayLines w clock (Db.empty 0) lines).store),
        ∃ k v, parse l = .ok ⟨.SET, ascii "SET", [k, v]⟩ := by
  intro h
  obtain ⟨key, hkey, hlen⟩ : ∃ key, IsWord isspace key ∧ key.length = 8187 := by
    refine ⟨List.replicate 8187 97, ⟨?_, fun c hc => ?_⟩, List.length_replicate⟩
    · exact List.ne_nil_of_length_pos (by rw [List.length_replicate]; decide)
    · rw [List.eq_of_mem_replicate hc]
      decide
  have hline : key.length + 5 ≤ kMaxLineLength := by
    rw [hlen]
    decide
  have hlong : ¬ Fits key (ascii "1") := by
    rw [Fits, hlen]
    decide
  have hok : ∀ l ∈ [incrLine key], ∃ cmd, parse l = .ok cmd := fun l hl => by
    rw [List.mem_singleton.mp hl]
    exact ⟨_, parse_incrLine hkey hline⟩
  let w : Wiring := ⟨true, true⟩
  let clock : Nat → Now := fun _ => .epoch
  have hback := congrFun (h w clock clock [incrLine key] hok).1 key
  have hw := replayLines_words (wordEntries_empty 0) w clock [incrLine key]
  rw [load_save_lookup hw, replay_incrLine hkey hline] at hback
  simp [hlong] at hback

/-! ## Recency -/

theorem lineOnEntries_setLine {k v : Bytes} (hk : IsWord isspace k) (hv : IsWord isspace v)
    (hfit : Fits k v) (c : Nat) (es : List (Bytes × Bytes)) :
    lineOnEntries c es (setLine k v) = trim c (put k v es) := by
  rw [lineOnEntries, parse_setLine hk hv hfit]
  rfl

theorem foldl_dumpLines {es : List (Bytes × Bytes)} (hw : WordEntries es) (hfit : FitEntries es)
    (c : Nat) (acc : List (Bytes × Bytes)) :
    (dumpLines es).foldl (lineOnEntries c) acc =
      es.foldl (fun acc e => trim c (put e.1 e.2 acc)) acc := by
  induction es generalizing acc with
  | nil => rfl
  | cons e es ih =>
    obtain ⟨hk, hv⟩ := hw e.1 e.2 List.mem_cons_self
    rw [dumpLines, List.map_cons, List.foldl_cons, List.foldl_cons,
      lineOnEntries_setLine hk hv (hfit e.1 e.2 List.mem_cons_self)]
    exact ih (fun k v hm => hw k v (List.mem_cons_of_mem _ hm))
      (fun k v hm => hfit k v (List.mem_cons_of_mem _ hm)) _

/-- A snapshot that is loaded into an empty store brings the pairs back in the reverse order. -/
theorem load_save_entries {store : Store} (hw : WordEntries store.entries)
    (hfit : FitEntries store.entries) (w : Wiring) (clock : Nat → Now) :
    (load w clock (SnapshotManager.save store) (Db.empty store.capacity)).store.entries =
      store.entries.reverse := by
  have hempty : (Db.empty store.capacity).store.entries = [] := rfl
  have hcap : (Db.empty store.capacity).store.capacity = store.capacity := rfl
  rw [load, getlines_save hw, replayLines_entries, hempty, hcap, foldl_dumpLines hw hfit,
    foldl_trim_put, List.append_nil]
  · rw [List.append_nil]
    exact store.unique
  · rw [List.append_nil]
    exact store.length_entries_le

/-- The pairs stand in the same order, and a write to any key evicts the same one. -/
def KeepsRecency (store loaded : Store) : Prop :=
  loaded.entries = store.entries ∧
    ∀ key, evicted loaded.capacity key loaded.entries = evicted store.capacity key store.entries

/-- **A snapshot keeps recency** exactly if it holds at most one pair. -/
theorem snapshot_keepsRecency_iff (w : Wiring) (clock : Nat → Now) (store : Store)
    (hfit : FitEntries store.entries) :
    KeepsRecency store
        (load w clock (SnapshotManager.save store) (Db.empty store.capacity)).store ↔
      store.entries.length ≤ 1 ∧ WordEntries store.entries := by
  have hcap : (load w clock (SnapshotManager.save store) (Db.empty store.capacity)).store.capacity =
      store.capacity := replayLines_capacity w clock _ _
  constructor
  · rintro ⟨heq, -⟩
    -- What a load builds are words.
    have hw : WordEntries store.entries := by
      rw [← heq]
      exact replayLines_words (wordEntries_empty _) w clock _
    rw [load_save_entries hw hfit] at heq
    exact ⟨store.unique.reverse_eq_iff.mp heq, hw⟩
  · rintro ⟨hlen, hw⟩
    have heq := (load_save_entries hw hfit w clock).trans (store.unique.reverse_eq_iff.mpr hlen)
    exact ⟨heq, fun key => by rw [heq, hcap]⟩

/-- With one pair a store comes back as it was. -/
theorem snapshot_keepsRecency_onePair :
    KeepsRecency ((Store.empty 2).set (ascii "a") (ascii "1"))
      (load ⟨true, true⟩ (fun _ => .epoch)
        (SnapshotManager.save ((Store.empty 2).set (ascii "a") (ascii "1")))
        (Db.empty ((Store.empty 2).set (ascii "a") (ascii "1")).capacity)).store := by
  have hentries : ((Store.empty 2).set (ascii "a") (ascii "1")).entries =
      [(ascii "a", ascii "1")] := by decide
  refine (snapshot_keepsRecency_iff ⟨true, true⟩ (fun _ => .epoch) _ ?_).mpr ⟨?_, ?_⟩
  · rw [hentries]
    decide
  · rw [hentries]
    decide
  · intro k v hm
    rw [hentries] at hm
    obtain ⟨rfl, rfl⟩ : k = ascii "a" ∧ v = ascii "1" := by simpa using hm
    exact ⟨by decide, by decide⟩

/-- A store with room for two pairs after `SET a 1` and `SET b 2`. -/
def twoKeyStore : Store := ((Store.empty 2).set (ascii "a") (ascii "1")).set (ascii "b") (ascii "2")

theorem entries_twoKeyStore :
    twoKeyStore.entries = [(ascii "b", ascii "2"), (ascii "a", ascii "1")] := by
  decide

theorem wordEntries_twoKeyStore : WordEntries twoKeyStore.entries := by
  intro k v hm
  rw [entries_twoKeyStore] at hm
  simp only [List.mem_cons, Prod.mk.injEq, List.not_mem_nil, or_false] at hm
  obtain ⟨rfl, rfl⟩ | ⟨rfl, rfl⟩ := hm
  · exact ⟨by decide, by decide⟩
  · exact ⟨by decide, by decide⟩

theorem fitEntries_twoKeyStore : FitEntries twoKeyStore.entries := by
  rw [entries_twoKeyStore]
  decide

/-- `SET c 3` evicts `a`, the key that was used least recently; after a restart from the snapshot
it evicts `b`. -/
theorem restart_evicts_newest :
    FitEntries twoKeyStore.entries ∧
    evicted 2 (ascii "c") twoKeyStore.entries = some (ascii "a") ∧
    evicted 2 (ascii "c") (load ⟨true, true⟩ (fun _ => .epoch)
      (SnapshotManager.save twoKeyStore) (Db.empty twoKeyStore.capacity)).store.entries =
        some (ascii "b") ∧
    ¬ KeepsRecency twoKeyStore (load ⟨true, true⟩ (fun _ => .epoch)
      (SnapshotManager.save twoKeyStore) (Db.empty twoKeyStore.capacity)).store := by
  have hload := load_save_entries wordEntries_twoKeyStore fitEntries_twoKeyStore ⟨true, true⟩
    fun _ => .epoch
  refine ⟨fitEntries_twoKeyStore, by decide, ?_, ?_⟩
  · rw [hload, entries_twoKeyStore]
    decide
  · rintro ⟨heq, -⟩
    rw [hload, entries_twoKeyStore] at heq
    revert heq
    decide

end TinyKV
