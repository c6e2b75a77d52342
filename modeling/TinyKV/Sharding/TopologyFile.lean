import TinyKV.Sharding.Topology
import Mathlib.Data.List.Nodup

/-!
# Topology files

`src/config.cpp` and `ShardTopology::parseShards`. A configuration file has one `key=value` in a
line; blanks around the key and the value do not count, and lines that are blank or start with `#`
are skipped. The topology takes the ids from `shards` and two addresses for each id from keys that
are made of the id.

* `Config.loadFromFile`: the values after a file. `loadLine_noise`, `loadLine_entry`: what a line
  does.
* `ConfigLines`: the lines of a file, and the keys and values that are written in them.
  `loadFromFile_written`: what is read from such a file.
* `mem_topologyEntries_unique`: the keys of different shards do not clash.
* `topology_roundTrip`: a topology that is written comes back.
-/

namespace TinyKV

open Cpp Text

/-! ## Configuration files -/

namespace Config

/-- What `trim` drops: `" \t\r\n"`. -/
def isTrimmed (c : UInt8) : Bool := c == 32 || c == 9 || c == 13 || c == 10

def trim (s : Bytes) : Bytes := strip isTrimmed s

/-- A `Config` before any file. -/
def empty : Config := fun _ => none

/-- `values_[key] = value` -/
def set (config : Config) (key value : Bytes) : Config := Function.update config key (some value)

/-- One line of `loadFromFile`. -/
def loadLine (config : Config) (line : Bytes) : Config :=
  let trimmed := trim line
  if trimmed.isEmpty || trimmed.head? = some 35 then config
  else match cutAt 61 trimmed with
    | none => config
    | some (before, after) =>
      let key := trim before
      let value := trim after
      if key.isEmpty then config else config.set key value

/-- `loadFromFile`, with what it returns; `none` is a file that cannot be opened. -/
def loadFromFile (config : Config) : Option Bytes → Config × Bool
  | none => (config, false)
  | some file => ((getlines newline file).foldl loadLine config, true)

end Config

open Config (trim isTrimmed)

/-- Bytes that `trim` drops. -/
def Blanks (b : Bytes) : Prop := ∀ c ∈ b, isTrimmed c = true

/-- A line without a value: blank, or a comment. -/
def Noise (line : Bytes) : Prop :=
  Blanks line ∨ ∃ blanks comment, Blanks blanks ∧ line = blanks ++ 35 :: comment

/-- A key as it can be written: without blanks at its ends, without `=`, and no comment. -/
structure KeyText (key : Bytes) : Prop where
  trim_eq : trim key = key
  ne_nil : key ≠ []
  equals : 61 ∉ key
  comment : key.head? ≠ some 35

/-- A line that has no value changes nothing. -/
theorem loadLine_noise {line : Bytes} (h : Noise line) (config : Config) :
    config.loadLine line = config := by
  unfold Config.loadLine
  obtain hblank | ⟨blanks, comment, hblanks, rfl⟩ := h
  · have htrim : trim line = [] := by
      have := strip_append_seps hblank []
      rwa [List.nil_append] at this
    rw [htrim]
    rfl
  · have htrim : trim (blanks ++ 35 :: comment) = 35 :: comment.rdropWhile isTrimmed := by
      have hkeyed := strip_seps_append hblanks (35 :: comment)
      rw [trim, hkeyed, strip, List.dropWhile_cons_of_neg (by decide)]
      exact rdropWhile_append_cons (by decide) [] comment
    rw [htrim]
    rfl

/-- A line with a key and a value, and blanks around both. -/
theorem loadLine_entry {key value pre mid mid' post : Bytes} (hkey : KeyText key)
    (hvalue : trim value = value) (hpre : Blanks pre) (hmid : Blanks mid) (hmid' : Blanks mid')
    (hpost : Blanks post) (config : Config) :
    config.loadLine (pre ++ (key ++ mid ++ 61 :: (mid' ++ value ++ post))) =
      config.set key value := by
  have htrim : trim (pre ++ (key ++ mid ++ 61 :: (mid' ++ value ++ post))) =
      key ++ mid ++ 61 :: (mid' ++ value ++ post).rdropWhile isTrimmed :=
    strip_keyed hkey.trim_eq hkey.ne_nil hpre (by decide) _
  have hbefore : trim (key ++ mid) = key := (strip_append_seps hmid key).trans hkey.trim_eq
  have hafter : trim ((mid' ++ value ++ post).rdropWhile isTrimmed) = value := by
    rw [trim, strip_rdropWhile, strip_append_seps hpost, strip_seps_append hmid']
    exact hvalue
  have hequals : 61 ∉ key ++ mid := by
    rw [List.mem_append, not_or]
    exact ⟨hkey.equals, fun hm => absurd (hmid 61 hm) (by decide)⟩
  obtain ⟨c, k, rfl⟩ := List.exists_cons_of_ne_nil hkey.ne_nil
  have hc : c ≠ 35 := fun he => hkey.comment (congrArg some he)
  unfold Config.loadLine
  rw [htrim]
  dsimp only
  rw [cutAt_append hequals, if_neg (by simp [hc])]
  dsimp only
  rw [hbefore, hafter]
  rfl

/-- The lines of a file, with the keys and values that are written in them. -/
inductive ConfigLines : List Bytes → List (Bytes × Bytes) → Prop where
  | nil : ConfigLines [] []
  | noise {line : Bytes} {lines : List Bytes} {es : List (Bytes × Bytes)} (h : Noise line)
      (rest : ConfigLines lines es) : ConfigLines (line :: lines) es
  | entry {key value pre mid mid' post : Bytes} {lines : List Bytes} {es : List (Bytes × Bytes)}
      (hpre : Blanks pre) (hmid : Blanks mid) (hmid' : Blanks mid') (hpost : Blanks post)
      (rest : ConfigLines lines es) :
      ConfigLines ((pre ++ (key ++ mid ++ 61 :: (mid' ++ value ++ post))) :: lines)
        ((key, value) :: es)

/-- The lines of a file assign the values that are written, one after the other. -/
theorem foldl_loadLine {lines : List Bytes} {es : List (Bytes × Bytes)} (h : ConfigLines lines es)
    (hes : ∀ e ∈ es, KeyText e.1 ∧ trim e.2 = e.2) (config : Config) :
    lines.foldl Config.loadLine config =
      es.foldl (fun config e => Config.set config e.1 e.2) config := by
  induction h generalizing config with
  | nil => rfl
  | noise h _ ih => rw [List.foldl_cons, loadLine_noise h, ih hes]
  | entry hpre hmid hmid' hpost _ ih =>
    obtain ⟨⟨hkey, hvalue⟩, hes⟩ := List.forall_mem_cons.mp hes
    rw [List.foldl_cons, List.foldl_cons, loadLine_entry hkey hvalue hpre hmid hmid' hpost, ih hes]

/-- Values of which no two are for one key are all there in the end. -/
theorem foldl_set_eq_some {es : List (Bytes × Bytes)}
    (huniq : ∀ k v v', (k, v) ∈ es → (k, v') ∈ es → v = v') (k v : Bytes) :
    es.foldl (fun config e => Config.set config e.1 e.2) Config.empty k = some v ↔
      (k, v) ∈ es := by
  induction es using List.reverseRecOn with
  | nil => simp [Config.empty]
  | append_singleton es e ih =>
    have ih := ih fun k v v' h h' =>
      huniq k v v' (List.mem_append_left _ h) (List.mem_append_left _ h')
    have hlast : (e.1, e.2) ∈ es ++ [e] := List.mem_append_right _ (List.mem_singleton.mpr rfl)
    rw [List.foldl_append, List.foldl_cons, List.foldl_nil, Config.set, Function.update_apply]
    split
    · rename_i hk
      subst hk
      constructor
      · intro he
        cases he
        exact hlast
      · intro hm
        rw [huniq e.1 v e.2 hm hlast]
    · rename_i hk
      rw [ih, List.mem_append, List.mem_singleton]
      refine ⟨.inl, fun h => h.resolve_right fun he => hk ?_⟩
      rw [← he]

/-- What is read from a file. -/
theorem loadFromFile_written {file : Bytes} {es : List (Bytes × Bytes)}
    (h : ConfigLines (getlines newline file) es) (hes : ∀ e ∈ es, KeyText e.1 ∧ trim e.2 = e.2)
    (huniq : ∀ k v v', (k, v) ∈ es → (k, v') ∈ es → v = v') :
    ∃ config, Config.empty.loadFromFile (some file) = (config, true) ∧
      ∀ k v, config k = some v ↔ (k, v) ∈ es := by
  refine ⟨_, rfl, fun k v => ?_⟩
  rw [foldl_loadLine h hes]
  exact foldl_set_eq_some huniq k v

/-! ## Topologies -/

/-- A shard as it is declared. -/
structure ShardSpec where
  id : Bytes
  primary : Bytes
  replica : Option Bytes

namespace ShardSpec

/-- The shard at the start: its primary serves it, and all nodes are up. -/
def shard (s : ShardSpec) : Shard where
  id := s.id
  primary := { address := s.primary, health := .UP, consecutiveMisses := 0 }
  hasReplica := s.replica.isSome
  replica := { address := s.replica.getD [], health := .UP, consecutiveMisses := 0 }
  activeAddress := s.primary
  failedOver := false

/-- `<id>.primary` and its value, and `<id>.replica` and its value if there is a replica. -/
def entries (s : ShardSpec) : List (Bytes × Bytes) :=
  (s.id ++ ascii ".primary", s.primary) ::
    s.replica.toList.map fun r => (s.id ++ ascii ".replica", r)

/-- What can be declared: an id that is not empty, without commas, `=` and blanks, which does not
start with `#`, addresses that have no blanks at their ends, and no empty one for a replica. -/
structure Valid (s : ShardSpec) : Prop where
  id_ne_nil : s.id ≠ []
  id_chars : ∀ c ∈ s.id, c ≠ 44 ∧ c ≠ 61 ∧ isspace c = false
  id_head : s.id.head? ≠ some 35
  primary_trim : trim s.primary = s.primary
  replica : ∀ r ∈ s.replica, r ≠ [] ∧ trim r = r

end ShardSpec

/-- The ids with commas between them. -/
def joinCsv : List Bytes → Bytes
  | [] => []
  | id :: ids => id ++ ids.flatMap fun id => 44 :: id

/-- All keys and values of a topology. -/
def topologyEntries (specs : List ShardSpec) : List (Bytes × Bytes) :=
  (ascii "shards", joinCsv (specs.map ShardSpec.id)) :: specs.flatMap ShardSpec.entries

theorem splitCsv_joinCsv {ids : List Bytes} (h : ∀ id ∈ ids, id ≠ [] ∧ 44 ∉ id) :
    splitCsv (joinCsv ids) = ids := by
  cases ids with
  | nil => rfl
  | cons id ids =>
    refine words_join (by decide) fun v hv => ⟨(h v hv).1, fun c hc => ?_⟩
    exact decide_eq_false fun he => (h v hv).2 (he ▸ hc)

/-- What is not a blank at all is not trimmed. -/
theorem not_isTrimmed_of_not_isspace {c : UInt8} (h : isspace c = false) : isTrimmed c = false := by
  by_contra ht
  simp only [isTrimmed, Bool.not_eq_false, Bool.or_eq_true, beq_iff_eq] at ht
  obtain ((rfl | rfl) | rfl) | rfl := ht <;> revert h <;> decide

/-- A text without blanks is its own trim. -/
theorem trim_eq_self {s : Bytes} (h : ∀ c ∈ s, isTrimmed c = false) : trim s = s := by
  have hfront : s.dropWhile isTrimmed = s := by
    cases s with
    | nil => rfl
    | cons c s => exact List.dropWhile_cons_of_neg (by simp [h c List.mem_cons_self])
  rw [trim, strip, hfront, List.rdropWhile_eq_self_iff]
  exact fun hne => by simp [h _ (List.getLast_mem hne)]

theorem mem_topologyEntries {specs : List ShardSpec} {k v : Bytes} :
    (k, v) ∈ topologyEntries specs ↔
      (k = ascii "shards" ∧ v = joinCsv (specs.map ShardSpec.id)) ∨
      ∃ s ∈ specs, (k = s.id ++ ascii ".primary" ∧ v = s.primary) ∨
        (k = s.id ++ ascii ".replica" ∧ s.replica = some v) := by
  simp only [topologyEntries, ShardSpec.entries, List.mem_cons, Prod.mk.injEq, List.mem_flatMap,
    List.mem_map, Option.mem_toList]
  grind

theorem shards_ne_key (id : Bytes) {suffix : Bytes} (h : 46 ∈ suffix) :
    ascii "shards" ≠ id ++ suffix := by
  intro he
  have hdot : (46 : UInt8) ∉ ascii "shards" := by decide
  exact hdot (he ▸ List.mem_append_right id h)

theorem shards_ne_primary (id : Bytes) : ascii "shards" ≠ id ++ ascii ".primary" :=
  shards_ne_key id (by decide)

theorem shards_ne_replica (id : Bytes) : ascii "shards" ≠ id ++ ascii ".replica" :=
  shards_ne_key id (by decide)

/-- The two suffixes are equally long and differ, so that the key tells the id and the node. -/
theorem primary_ne_replica (id id' : Bytes) : id ++ ascii ".primary" ≠ id' ++ ascii ".replica" := by
  intro he
  have hsuffix := (List.append_inj' he (by decide)).2
  revert hsuffix
  decide

/-- What a key is bound to. -/
theorem shards_entry {specs : List ShardSpec} {v : Bytes} :
    (ascii "shards", v) ∈ topologyEntries specs ↔ v = joinCsv (specs.map ShardSpec.id) := by
  rw [mem_topologyEntries]
  constructor
  · rintro (⟨-, rfl⟩ | ⟨s, -, ⟨hk, -⟩ | ⟨hk, -⟩⟩)
    · rfl
    · exact absurd hk (shards_ne_primary s.id)
    · exact absurd hk (shards_ne_replica s.id)
  · rintro rfl
    exact .inl ⟨rfl, rfl⟩

section

variable {specs : List ShardSpec} (hids : (specs.map ShardSpec.id).Nodup)

include hids

theorem primary_entry {s : ShardSpec} (hs : s ∈ specs) {v : Bytes} :
    (s.id ++ ascii ".primary", v) ∈ topologyEntries specs ↔ v = s.primary := by
  rw [mem_topologyEntries]
  constructor
  · rintro (⟨hk, -⟩ | ⟨s', hs', ⟨hk, rfl⟩ | ⟨hk, -⟩⟩)
    · exact absurd hk.symm (shards_ne_primary s.id)
    · rw [List.inj_on_of_nodup_map hids hs hs' (List.append_cancel_right hk)]
    · exact absurd hk (primary_ne_replica s.id s'.id)
  · rintro rfl
    exact .inr ⟨s, hs, .inl ⟨rfl, rfl⟩⟩

theorem replica_entry {s : ShardSpec} (hs : s ∈ specs) {v : Bytes} :
    (s.id ++ ascii ".replica", v) ∈ topologyEntries specs ↔ s.replica = some v := by
  rw [mem_topologyEntries]
  constructor
  · rintro (⟨hk, -⟩ | ⟨s', hs', ⟨hk, -⟩ | ⟨hk, hr⟩⟩)
    · exact absurd hk.symm (shards_ne_replica s.id)
    · exact absurd hk.symm (primary_ne_replica s'.id s.id)
    · rw [List.inj_on_of_nodup_map hids hs hs' (List.append_cancel_right hk)]
      exact hr
  · intro hr
    exact .inr ⟨s, hs, .inr ⟨rfl, hr⟩⟩

/-- The keys of a topology with distinct ids do not clash. -/
theorem topologyEntries_unique (k v v' : Bytes) (h : (k, v) ∈ topologyEntries specs)
    (h' : (k, v') ∈ topologyEntries specs) : v = v' := by
  obtain ⟨rfl, rfl⟩ | ⟨s, hs, ⟨rfl, rfl⟩ | ⟨rfl, hr⟩⟩ := mem_topologyEntries.mp h
  · exact (shards_entry.mp h').symm
  · exact ((primary_entry hids hs).mp h').symm
  · exact Option.some.inj (hr.symm.trans ((replica_entry hids hs).mp h'))

end

theorem mem_joinCsv {ids : List Bytes} {c : UInt8} (h : c ∈ joinCsv ids) :
    c = 44 ∨ ∃ id ∈ ids, c ∈ id := by
  cases ids with
  | nil => cases h
  | cons id ids =>
    simp only [joinCsv, List.mem_append, List.mem_flatMap, List.mem_cons] at h
    obtain h | ⟨id', hid', rfl | h⟩ := h
    · exact .inr ⟨id, List.mem_cons_self, h⟩
    · exact .inl rfl
    · exact .inr ⟨id', List.mem_cons_of_mem _ hid', h⟩

theorem keyText_shards : KeyText (ascii "shards") := ⟨by decide, by decide, by decide, by decide⟩

/-- A key that is made of an id. -/
theorem ShardSpec.Valid.keyText {s : ShardSpec} (h : s.Valid) {suffix : Bytes}
    (htrim : suffix.all (fun c => !isTrimmed c) = true) (hequals : 61 ∉ suffix) :
    KeyText (s.id ++ suffix) := by
  obtain ⟨c, id, hid⟩ := List.exists_cons_of_ne_nil h.id_ne_nil
  refine ⟨trim_eq_self fun d hd => ?_, by simp [hid], ?_, ?_⟩
  · rcases List.mem_append.mp hd with hd | hd
    · exact not_isTrimmed_of_not_isspace (h.id_chars d hd).2.2
    · simpa using List.all_eq_true.mp htrim d hd
  · rw [List.mem_append, not_or]
    exact ⟨fun hm => (h.id_chars 61 hm).2.1 rfl, hequals⟩
  · have hhead := h.id_head
    rw [hid] at hhead ⊢
    exact hhead

/-- The keys and values of a valid topology can be written. -/
theorem keyText_topologyEntries {specs : List ShardSpec} (h : ∀ s ∈ specs, s.Valid) :
    ∀ e ∈ topologyEntries specs, KeyText e.1 ∧ trim e.2 = e.2 := by
  rintro ⟨k, v⟩ he
  obtain ⟨rfl, rfl⟩ | ⟨s, hs, ⟨rfl, rfl⟩ | ⟨rfl, hr⟩⟩ := mem_topologyEntries.mp he
  · refine ⟨keyText_shards, trim_eq_self fun c hc => ?_⟩
    obtain rfl | ⟨id, hid, hc⟩ := mem_joinCsv hc
    · decide
    · obtain ⟨s, hs, rfl⟩ := List.mem_map.mp hid
      exact not_isTrimmed_of_not_isspace ((h s hs).id_chars c hc).2.2
  · exact ⟨(h s hs).keyText (by decide) (by decide), (h s hs).primary_trim⟩
  · exact ⟨(h s hs).keyText (by decide) (by decide), ((h s hs).replica v hr).2⟩

/-- What is read back for one shard. -/
theorem parseShard_eq {specs : List ShardSpec} (hids : (specs.map ShardSpec.id).Nodup)
    (hvalid : ∀ s ∈ specs, s.Valid) {config : Config}
    (hconfig : ∀ k v, config k = some v ↔ (k, v) ∈ topologyEntries specs) {s : ShardSpec}
    (hs : s ∈ specs) : parseShard config s.id = s.shard := by
  have hprimary : config.getString (s.id ++ ascii ".primary") [] = s.primary := by
    rw [Config.getString, (hconfig _ _).mpr ((primary_entry hids hs).mpr rfl), Option.getD_some]
  have hreplica : config (s.id ++ ascii ".replica") = s.replica := by
    refine Option.ext fun v => ?_
    rw [hconfig, replica_entry hids hs]
  have hempty : (!(s.replica.getD []).isEmpty) = s.replica.isSome := by
    cases hr : s.replica with
    | none => rfl
    | some r => simpa using ((hvalid s hs).replica r hr).1
  rw [parseShard, hprimary, Config.getString, hreplica, hempty]
  rfl

/-- **Topology files round trip.** The entries of a valid topology with distinct ids, written in any
order into lines with blanks around key and value, among blank lines and comments, come back as the
list of shards. -/
theorem topology_roundTrip (specs : List ShardSpec) (hids : (specs.map ShardSpec.id).Nodup)
    (hvalid : ∀ s ∈ specs, s.Valid) {es : List (Bytes × Bytes)}
    (hperm : es.Perm (topologyEntries specs)) {file : Bytes}
    (hfile : ConfigLines (getlines newline file) es) :
    ∃ config, Config.empty.loadFromFile (some file) = (config, true) ∧
      parseShards config = specs.map ShardSpec.shard := by
  obtain ⟨config, hload, hconfig⟩ := loadFromFile_written hfile
    (fun e he => keyText_topologyEntries hvalid e (hperm.mem_iff.mp he))
    (fun k v v' h h' => topologyEntries_unique hids k v v' (hperm.mem_iff.mp h)
      (hperm.mem_iff.mp h'))
  have hconfig : ∀ k v, config k = some v ↔ (k, v) ∈ topologyEntries specs := fun k v =>
    (hconfig k v).trans hperm.mem_iff
  refine ⟨config, hload, ?_⟩
  have hcsv : config.getString (ascii "shards") [] = joinCsv (specs.map ShardSpec.id) := by
    rw [Config.getString, (hconfig _ _).mpr (shards_entry.mpr rfl), Option.getD_some]
  have hsplit : splitCsv (joinCsv (specs.map ShardSpec.id)) = specs.map ShardSpec.id := by
    refine splitCsv_joinCsv fun id hid => ?_
    obtain ⟨s, hs, rfl⟩ := List.mem_map.mp hid
    exact ⟨(hvalid s hs).id_ne_nil, fun hm => ((hvalid s hs).id_chars 44 hm).1 rfl⟩
  rw [parseShards, hcsv, hsplit, List.map_map]
  exact List.map_congr_left fun s hs => parseShard_eq hids hvalid hconfig hs

/-- Two shards, one with a replica. -/
def twoSpecs : List ShardSpec :=
  [⟨ascii "s0", ascii "h:1", some (ascii "h:2")⟩, ⟨ascii "s1", ascii "h:3", none⟩]

/-- A file for them, in another order and with blanks. -/
def twoSpecsFile : Bytes :=
  ascii "# shards\n\n s1.primary = h:3\r\nshards=s0,s1\ns0.replica=h:2\n\ts0.primary=h:1"

theorem topology_roundTrip_twoSpecs :
    ∃ config, Config.empty.loadFromFile (some twoSpecsFile) = (config, true) ∧
      parseShards config = twoSpecs.map ShardSpec.shard := by
  have hlines : getlines newline twoSpecsFile =
      [[] ++ 35 :: ascii " shards", [],
        ascii " " ++ (ascii "s1.primary" ++ ascii " " ++ 61 :: (ascii " " ++ ascii "h:3" ++ [13])),
        [] ++ (ascii "shards" ++ [] ++ 61 :: ([] ++ ascii "s0,s1" ++ [])),
        [] ++ (ascii "s0.replica" ++ [] ++ 61 :: ([] ++ ascii "h:2" ++ [])),
        ascii "\t" ++ (ascii "s0.primary" ++ [] ++ 61 :: ([] ++ ascii "h:1" ++ []))] := by
    decide
  have hchars : ∀ id : Bytes, id.all (fun c => c != 44 && c != 61 && !isspace c) = true →
      ∀ c ∈ id, c ≠ 44 ∧ c ≠ 61 ∧ isspace c = false := fun id h c hc => by
    simpa [and_assoc] using List.all_eq_true.mp h c hc
  have hvalid : ∀ s ∈ twoSpecs, s.Valid := by
    refine List.forall_mem_cons.mpr ⟨?_, List.forall_mem_singleton.mpr ?_⟩
    · refine ⟨by decide, hchars _ (by decide), by decide, by decide, fun r hr => ?_⟩
      cases hr
      exact ⟨by decide, by decide⟩
    · exact ⟨by decide, hchars _ (by decide), by decide, by decide, fun r hr => nomatch hr⟩
  have hperm : [(ascii "s1.primary", ascii "h:3"), (ascii "shards", ascii "s0,s1"),
      (ascii "s0.replica", ascii "h:2"), (ascii "s0.primary", ascii "h:1")].Perm
        (topologyEntries twoSpecs) := by
    decide
  have hnil : Blanks [] := fun c hc => nomatch hc
  have hblank : ∀ c, isTrimmed c = true → Blanks [c] := fun c hc => List.forall_mem_singleton.mpr hc
  refine topology_roundTrip twoSpecs (by decide) hvalid hperm ?_
  rw [hlines]
  exact .noise (.inr ⟨[], _, hnil, rfl⟩) <| .noise (.inl hnil) <|
    .entry (hblank 32 rfl) (hblank 32 rfl) (hblank 32 rfl) (hblank 13 rfl) <|
    .entry hnil hnil hnil hnil <| .entry hnil hnil hnil hnil <|
    .entry (hblank 9 rfl) hnil hnil hnil .nil

end TinyKV
