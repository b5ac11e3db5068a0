import LakeVilla.Storage.Naming

/-!
# The in-memory store keeps the promises of the interface

All statements about LakeVilla's clients are about the store of `Connector.lean`. Here every run of
requests to `MemoryConnector.cpp` turns out to be a run of that store: the tests' store gives no
response that `serve` could not give. A run mixes calls on shared objects with calls on others. The
invariant is `Represents`: what lies under the path of a shared object is this object, a log
directory shows its versions and nothing else, and the ETags of shared objects are distinct texts.
-/

namespace LakeVilla

open ByteString (ascii padded decimal)
open DeltaLog (logDir logFileName parseLogVersion)

/-! ## Paths -/

/-- What starts with a directory either lies in it or continues its path. -/
theorem isPrefix_of_directory {d e name : ByteString} (hd : d.getLast? = some 47)
    (h : d <+: e ++ name) (hname : (47 : Byte) ∉ name) : d <+: e := by
  rcases le_total d.length e.length with hlen | hlen
  · exact List.prefix_of_prefix_length_le h (List.prefix_append e name) hlen
  · obtain ⟨x, rfl⟩ := List.prefix_of_prefix_length_le (List.prefix_append e name) h hlen
    have hx : x <+: name := (List.prefix_append_right_inj e).mp h
    rcases List.eq_nil_or_concat x with rfl | ⟨x', c, rfl⟩
    · rw [List.append_nil]
    · -- the slash would be in the name
      rw [List.concat_eq_append, ← List.append_assoc, List.getLast?_concat] at hd
      have hc : c ∈ name := hx.subset (by simp)
      exact absurd (Option.some.inj hd ▸ hc) hname

theorem slash_notMem_logFileName (v : ℕ) : (47 : Byte) ∉ logFileName v (ascii ".json") :=
  DeltaLog.allDigits_append_json (ByteString.allDigits_padded 20 v)

theorem logFileName_inj {v v' : ℕ}
    (h : logFileName v (ascii ".json") = logFileName v' (ascii ".json")) : v = v' := by
  have hpadded : padded 20 v = padded 20 v' := List.append_cancel_right h
  rw [← ByteString.ofDecimal_padded 20 v, hpadded, ByteString.ofDecimal_padded]

namespace Naming

variable {n : Naming} {table : Table} {k k' : Key}

theorem getLast?_logPath : (n.logPath table).getLast? = some 47 := by
  rw [logPath, List.getLast?_append]
  rfl

/-- The log directory of a table holds the table's versions. -/
theorem logPath_isPrefix_path : n.logPath table <+: n.path k ↔ ∃ v, k = .version table v := by
  constructor
  · intro h
    cases k with
    | version table' v =>
      have hdir := isPrefix_of_directory getLast?_logPath h (slash_notMem_logFileName v)
      exact ⟨v, by rw [n.apart hdir]⟩
    | globalLog => exact absurd h (n.globalLog_outside table)
    | globalTmpLog => exact absurd h (n.globalTmpLog_outside table)
  · rintro ⟨v, rfl⟩
    exact List.prefix_append _ _

theorem path_inj (h : n.path k = n.path k') : k = k' := by
  cases k with
  | version table v =>
    obtain ⟨v', rfl⟩ := logPath_isPrefix_path.mp (h ▸ logPath_isPrefix_path.mpr ⟨v, rfl⟩)
    rw [logFileName_inj (List.append_cancel_left h)]
  | globalLog =>
    cases k' with
    | version table' v' =>
      exact absurd (h ▸ logPath_isPrefix_path.mpr ⟨v', rfl⟩) (n.globalLog_outside _)
    | globalLog => rfl
    | globalTmpLog => exact absurd h n.globalLog_ne
  | globalTmpLog =>
    cases k' with
    | version table' v' =>
      exact absurd (h ▸ logPath_isPrefix_path.mpr ⟨v', rfl⟩) (n.globalTmpLog_outside _)
    | globalLog => exact absurd h.symm n.globalLog_ne
    | globalTmpLog => rfl

theorem parseLogVersion_path {v : ℕ} (h : v < 2 ^ 64) :
    parseLogVersion (n.path (.version table v)) = .ok (some v) := by
  rw [path, logPath, List.append_assoc]
  exact DeltaLog.parseLogVersion_logFileName h _

theorem path_lt_path {v v' : ℕ} (hv : v < 2 ^ 64) (hv' : v' < 2 ^ 64)
    (h : n.path (.version table v) < n.path (.version table v')) : v < v' := by
  rcases lt_trichotomy v v' with hlt | rfl | hlt
  · exact hlt
  · exact absurd h (List.lt_irrefl _)
  · have hnames := (DeltaLog.logFileName_lt_iff hv' hv (ascii ".json")).mpr hlt
    exact absurd (List.append_left_lt hnames) (List.lt_asymm h)

/-! ## ETags -/

section ETags

variable {etags : List ByteString} {text : ByteString} {e : ETag}

theorem etagText_append (h : e ≤ etags.length) (more : List ByteString) :
    etagText (etags ++ more) e = etagText etags e := by
  cases e with
  | zero => rfl
  | succ e => exact List.getElem?_append_left h

theorem etagText_concat : etagText (etags ++ [text]) (etags.length + 1) = some text :=
  List.getElem?_concat_length

/-- A text is that of an ETag if the ETag is that of the text. -/
theorem etagText_eq_some (h : etags.Nodup) (he : 0 < e) :
    etagText etags e = some text ↔ e = etagNumber etags text := by
  obtain ⟨e, rfl⟩ := Nat.exists_eq_add_one.mpr he
  rw [etagNumber]
  -- the number is the position of the first occurrence, and there is only one
  cases hindex : etags.idxOf? text with
  | none =>
    have hnot : text ∉ etags := List.idxOf?_eq_none_iff.mp hindex
    exact iff_of_false (fun htext ↦ hnot (List.mem_of_getElem? htext)) (Nat.succ_ne_zero e)
  | some i =>
    obtain ⟨hi, htext, -⟩ := List.idxOf?_eq_some_iff.mp hindex
    have hget : etags[i]? = some text := htext ▸ List.getElem?_eq_getElem hi
    constructor
    · intro he
      rw [(List.getElem?_inj hi h).mp (hget.trans he.symm)]
    · intro he
      rw [Nat.succ.inj he]
      exact hget

end ETags

/-! ## The invariant -/

/-- The in-memory store holds the objects of the other one, and objects that are not taken for
shared ones. -/
structure Represents (n : Naming) (j : Joint) : Prop where
  shared : ∀ k, j.memory.objects.get (n.path k) = (j.store.get k).map (n.object j.etags)
  fits : ∀ k, (j.store.get k).isSome → k.Fits
  others : ∀ path, (j.memory.objects.get path).isSome → (∃ k, path = n.path k) ∨ n.Foreign path
  length : j.etags.length = j.store.nextEtag
  nodup : j.etags.Nodup
  issued : ∀ text ∈ j.etags, ∃ i ≤ j.memory.nextEtag, text = MemoryConnector.etagText i
  held : ∀ k o, j.store.get k = some o → 0 < o.etag ∧ o.etag ≤ j.store.nextEtag

section Represents

variable {j : Joint} {m : MemoryConnector} {c : Content} {path content : ByteString} {clock : ℤ}

theorem Represents.wait (h : n.Represents j) (ms : ℕ) :
    n.Represents ⟨j.memory, j.store.wait ms, j.etags⟩ :=
  ⟨h.shared, h.fits, h.others, h.length, h.nodup, h.issued, h.held⟩

/-- The counts of bytes do not matter. -/
theorem Represents.counted {m m' : MemoryConnector} {s : Store} {etags : List ByteString}
    (h : n.Represents ⟨m, s, etags⟩) (hobjects : m'.objects = m.objects)
    (hnext : m'.nextEtag = m.nextEtag) : n.Represents ⟨m', s, etags⟩ := by
  refine ⟨?_, h.fits, ?_, h.length, h.nodup, ?_, h.held⟩
  · rw [hobjects]
    exact h.shared
  · rw [hobjects]
    exact h.others
  · rw [hnext]
    exact h.issued

theorem etagText_memory_inj {i i' : ℕ}
    (h : MemoryConnector.etagText i = MemoryConnector.etagText i') : i = i' := by
  have hdecimal : decimal i = decimal i' := List.append_cancel_right (List.append_cancel_left h)
  rw [← ByteString.ofDecimal_decimal i, hdecimal, ByteString.ofDecimal_decimal]

theorem wrap_succ {i : ℕ} (h : i + 1 < 2 ^ 64) : MemoryConnector.wrap (i + 1) = i + 1 :=
  Nat.mod_eq_of_lt h

/-- The next ETag is new. -/
theorem Represents.next_notMem (h : n.Represents j) :
    MemoryConnector.etagText (j.memory.nextEtag + 1) ∉ j.etags := by
  intro hmem
  obtain ⟨i, hi, htext⟩ := h.issued _ hmem
  have heq := etagText_memory_inj htext
  omega

theorem object_append {etags : List ByteString} {o : Object} (h : o.etag ≤ etags.length)
    (more : List ByteString) : n.object (etags ++ more) o = n.object etags o := by
  rw [object, object, etagText_append h]

theorem get_store (m : MemoryConnector) (path' : ByteString) (hroom : m.nextEtag + 1 < 2 ^ 64) :
    (m.store clock path content).objects.get path' =
      if path' = path then
        some ⟨content, MemoryConnector.etagText (m.nextEtag + 1), clock⟩
      else m.objects.get path' := by
  rw [MemoryConnector.store, OrderedMap.get_insert, wrap_succ hroom]

/-- **Writing a shared object.** -/
theorem Represents.put (h : n.Represents j) (hfits : k.Fits)
    (hroom : j.memory.nextEtag + 1 < 2 ^ 64) :
    n.Represents ⟨j.memory.store j.store.clock (n.path k) (n.encode c), j.store.put k c,
      j.etags ++ [MemoryConnector.etagText (j.memory.nextEtag + 1)]⟩ := by
  have hnext : (j.memory.store j.store.clock (n.path k) (n.encode c)).nextEtag =
      j.memory.nextEtag + 1 := wrap_succ hroom
  constructor
  case shared =>
    intro k'
    by_cases hk : k' = k
    · rw [get_store _ _ hroom, if_pos (hk ▸ rfl), hk, Store.get_put_self, Option.map_some, object,
        ← h.length, etagText_concat]
      rfl
    · rw [get_store _ _ hroom, if_neg fun hpath ↦ hk (path_inj hpath), Store.get_put_of_ne _ _ hk,
        h.shared]
      -- the other objects have older ETags, whose texts stay
      apply Option.map_congr
      intro o ho
      exact (object_append (h.length ▸ (h.held _ _ ho).2) _).symm
  case fits =>
    intro k' hk'
    by_cases hk : k' = k
    · exact hk ▸ hfits
    · rw [Store.get_put_of_ne _ _ hk] at hk'
      exact h.fits _ hk'
  case others =>
    intro path hpath
    by_cases hk : path = n.path k
    · exact .inl ⟨k, hk⟩
    · rw [get_store _ _ hroom, if_neg hk] at hpath
      exact h.others _ hpath
  case length => exact (List.length_append).trans (congrArg (· + 1) h.length)
  case nodup => exact List.nodup_append_comm.mpr (List.nodup_cons.mpr ⟨h.next_notMem, h.nodup⟩)
  case issued =>
    intro text htext
    rw [hnext]
    rcases List.mem_append.mp htext with htext | htext
    · obtain ⟨i, hi, rfl⟩ := h.issued _ htext
      exact ⟨i, by omega, rfl⟩
    · exact ⟨_, le_rfl, List.mem_singleton.mp htext⟩
  case held =>
    intro k' o ho
    show 0 < o.etag ∧ o.etag ≤ j.store.nextEtag + 1
    by_cases hk : k' = k
    · rw [hk, Store.get_put_self] at ho
      obtain rfl := Option.some.inj ho
      exact ⟨Nat.succ_pos _, le_rfl⟩
    · rw [Store.get_put_of_ne _ _ hk] at ho
      exact ⟨(h.held _ _ ho).1, (h.held _ _ ho).2.trans (Nat.le_succ _)⟩

/-- **Writing another object.** -/
theorem Represents.put_other (h : n.Represents j) (hpath : n.Foreign path)
    (hroom : j.memory.nextEtag + 1 < 2 ^ 64) :
    n.Represents ⟨j.memory.store clock path content, j.store, j.etags⟩ := by
  have hnext : j.memory.nextEtag ≤ (j.memory.store clock path content).nextEtag :=
    (wrap_succ hroom).ge.trans' (Nat.le_succ _)
  refine ⟨fun k ↦ ?_, h.fits, fun path' hpath' ↦ ?_, h.length, h.nodup, fun text htext ↦ ?_, h.held⟩
  · rw [get_store _ _ hroom, if_neg (hpath.1 k).symm, h.shared]
  · rw [get_store _ _ hroom] at hpath'
    split_ifs at hpath' with heq
    · exact .inr (heq ▸ hpath)
    · exact h.others _ hpath'
  · obtain ⟨i, hi, rfl⟩ := h.issued _ htext
    exact ⟨i, hi.trans hnext, rfl⟩

theorem get_deleteFile (m : MemoryConnector) (path path' : ByteString) :
    (m.deleteFile path).2.objects.get path' =
      if path' = path then none else m.objects.get path' := OrderedMap.get_erase

theorem Represents.erase (h : n.Represents j) (k : Key) :
    n.Represents ⟨(j.memory.deleteFile (n.path k)).2, j.store.erase k, j.etags⟩ := by
  constructor
  case shared =>
    intro k'
    rw [get_deleteFile, Store.get_erase]
    by_cases hk : k' = k
    · rw [if_pos (hk ▸ rfl), if_pos hk, Option.map_none]
    · rw [if_neg fun hpath ↦ hk (path_inj hpath), if_neg hk, h.shared]
  case fits =>
    intro k' hk'
    rw [Store.get_erase] at hk'
    split_ifs at hk'
    · cases hk'
    · exact h.fits _ hk'
  case others =>
    intro path hpath
    rw [get_deleteFile] at hpath
    split_ifs at hpath
    · cases hpath
    · exact h.others _ hpath
  case length => exact h.length
  case nodup => exact h.nodup
  case issued => exact h.issued
  case held =>
    intro k' o ho
    rw [Store.get_erase] at ho
    split_ifs at ho
    exact h.held _ _ ho

theorem Represents.erase_other (h : n.Represents j) (hpath : n.Foreign path) :
    n.Represents ⟨(j.memory.deleteFile path).2, j.store, j.etags⟩ := by
  refine ⟨fun k ↦ ?_, h.fits, fun path' hpath' ↦ ?_, h.length, h.nodup, h.issued, h.held⟩
  · rw [get_deleteFile, if_neg (hpath.1 k).symm, h.shared]
  · rw [get_deleteFile] at hpath'
    split_ifs at hpath'
    · cases hpath'
    · exact h.others _ hpath'

/-! ## Listings -/

/-- The version that a name is read back as -/
def readVersion (path : ByteString) : Option ℕ := (parseLogVersion path).toOption.join

theorem readVersion_path {v : ℕ} (h : v < 2 ^ 64) :
    readVersion (n.path (.version table v)) = some v := by
  rw [readVersion, parseLogVersion_path h]
  rfl

/-- The names in a log directory do not throw, and those of versions are paths of shared objects. -/
theorem Represents.read_entry (h : n.Represents j) {e : ByteString × MemoryObject}
    (he : e ∈ j.memory.objects.entries) (hlog : n.logPath table <+: e.1) :
    parseLogVersion e.1 = .ok (readVersion e.1) ∧
      ∀ v, readVersion e.1 = some v → v < 2 ^ 64 ∧ e.1 = n.path (.version table v) := by
  have hpresent : (j.memory.objects.get e.1).isSome := OrderedMap.isSome_get.mpr ⟨e, he, rfl⟩
  rcases h.others _ hpresent with ⟨k, hk⟩ | hforeign
  · obtain ⟨v, rfl⟩ := logPath_isPrefix_path.mp (hk ▸ hlog)
    rw [hk, h.shared, Option.isSome_map] at hpresent
    have hv : v < 2 ^ 64 := h.fits _ hpresent
    rw [hk, readVersion_path hv]
    refine ⟨parseLogVersion_path hv, fun v' hv' ↦ ?_⟩
    obtain rfl := Option.some.inj hv'
    exact ⟨hv, rfl⟩
  · have hparse := hforeign.2 table hlog
    have hread : readVersion e.1 = none := by
      rw [readVersion, hparse]
      rfl
    rw [hread]
    exact ⟨hparse, fun _ hv ↦ absurd hv (Option.some_ne_none _).symm⟩

theorem mem_withPrefix {e : ByteString × MemoryObject} :
    e ∈ j.memory.objects.withPrefix (n.logPath table) ↔
      e ∈ j.memory.objects.entries ∧ n.logPath table <+: e.1 := by
  rw [OrderedMap.withPrefix_eq, List.mem_filter, List.isPrefixOf_iff_prefix]

/-- **Listings.** The loop from the lower bound finds the objects of the directory; read back, their
names are the versions of the table. -/
theorem Represents.shows (h : n.Represents j) (table : Table) :
    Shows (j.memory.listObjects (n.logPath table)).1 (j.store.versions table) := by
  set found := j.memory.objects.withPrefix (n.logPath table) with hfound
  have hread : ∀ e ∈ found, parseLogVersion e.1 = .ok (readVersion e.1) ∧
      ∀ v, readVersion e.1 = some v → v < 2 ^ 64 ∧ e.1 = n.path (.version table v) := by
    intro e he
    obtain ⟨he, hlog⟩ := mem_withPrefix.mp he
    exact h.read_entry he hlog
  refine ⟨found.map fun e ↦ readVersion e.1, ?_, ?_, fun v ↦ ?_⟩
  · rw [MemoryConnector.listObjects, List.map_map, List.map_map]
    exact List.map_congr_left fun e he ↦ (hread e he).1
  · have hsorted : found.Pairwise fun a b ↦ a.1 < b.1 := by
      rw [hfound, OrderedMap.withPrefix_eq]
      exact j.memory.objects.sorted.filter _
    rw [List.reduceOption, List.filterMap_map, List.pairwise_filterMap]
    -- paths of versions are ordered as the versions
    refine hsorted.imp_of_mem fun {a b} ha hb hlt v hv v' hv' ↦ ?_
    obtain ⟨hfits, hpath⟩ := (hread a ha).2 v hv
    obtain ⟨hfits', hpath'⟩ := (hread b hb).2 v' hv'
    exact path_lt_path hfits hfits' (hpath ▸ hpath' ▸ hlt)
  · rw [List.reduceOption_mem_iff, Store.mem_versions, List.mem_map]
    constructor
    · rintro ⟨e, he, hv⟩
      obtain ⟨he', -⟩ := mem_withPrefix.mp he
      have hpresent : (j.memory.objects.get e.1).isSome := OrderedMap.isSome_get.mpr ⟨e, he', rfl⟩
      rw [((hread e he).2 v hv).2, h.shared, Option.isSome_map] at hpresent
      exact hpresent
    · intro hv
      have hpresent : (j.memory.objects.get (n.path (.version table v))).isSome := by
        rw [h.shared, Option.isSome_map]
        exact hv
      obtain ⟨e, he, hpath⟩ := OrderedMap.isSome_get.mp hpresent
      refine ⟨e, mem_withPrefix.mpr ⟨he, hpath ▸ logPath_isPrefix_path.mpr ⟨v, rfl⟩⟩, ?_⟩
      rw [hpath, readVersion_path (h.fits _ hv)]

theorem listObjects_objects (m : MemoryConnector) (pre : ByteString) :
    (m.listObjects pre).2.objects = m.objects ∧ (m.listObjects pre).2.nextEtag = m.nextEtag := by
  have hfold : ∀ (l : List (ByteString × MemoryObject)) (m : MemoryConnector),
      (l.foldl (fun m e ↦ m.read e.1.length) m).objects = m.objects ∧
        (l.foldl (fun m e ↦ m.read e.1.length) m).nextEtag = m.nextEtag := by
    intro l
    induction l with
    | nil => exact fun _ ↦ ⟨rfl, rfl⟩
    | cons e l ih => exact fun m ↦ ih (m.read e.1.length)
  exact hfold _ m

/-! ## One request -/

/-- A request at the time of the other store: `answer` gives its response. -/
def Explained (n : Naming) (d : Choice) (r : MemoryConnector.Request) (j : Joint) : Prop :=
  ∃ call response store etags, j.etags <+: etags ∧ answer d call j.store = (response, store) ∧
    n.Matches j.etags etags r.call (MemoryConnector.perform r j.memory).1 call response ∧
    n.Represents ⟨(MemoryConnector.perform r j.memory).2, store, etags⟩ ∧
    store.clock = j.store.clock

theorem explained {d : Choice} {r : MemoryConnector.Request}
    {reply : MemoryConnector.Response r.call} {call : Call} {response : Response call}
    {store : Store} {etags : List ByteString}
    (hperform : MemoryConnector.perform r j.memory = (reply, m)) (hetags : j.etags <+: etags)
    (hanswer : answer d call j.store = (response, store))
    (hmatches : n.Matches j.etags etags r.call reply call response)
    (hrep : n.Represents ⟨m, store, etags⟩) (hclock : store.clock = j.store.clock) :
    n.Explained d r j := by
  refine ⟨call, response, store, etags, hetags, hanswer, ?_, ?_, hclock⟩
  · rw [hperform]
    exact hmatches
  · rw [hperform]
    exact hrep

section Requests

variable {d : Choice} (h : n.Represents j)

include h

/-- **Failures.** -/
theorem Represents.explain_failed {call : MemoryConnector.Call} (hd : d.fault = .failed)
    (hcall : n.Shared call) (hne : call ≠ .storeTime) : n.Explained d ⟨call, true, clock⟩ j := by
  cases call with
  | write path data =>
    obtain ⟨k, c, -, rfl, rfl⟩ := hcall
    refine explained rfl List.prefix_rfl ?_ (.write k c false) h rfl
    rw [answer, hd, Fault.write]
  | writeAtomic path data =>
    obtain ⟨k, c, -, rfl, rfl⟩ := hcall
    refine explained rfl List.prefix_rfl ?_ (.writeAtomic k c .error 0) h rfl
    rw [answer, hd, Fault.write]
  | read2 path =>
    obtain ⟨k, rfl⟩ := hcall
    refine explained rfl List.prefix_rfl ?_ (.read2 k none) h rfl
    rw [answer, hd, Fault.ask]
  | readVersioned path =>
    obtain ⟨k, rfl⟩ := hcall
    refine explained rfl List.prefix_rfl ?_ (.readVersioned_none k) h rfl
    rw [answer, hd, Fault.ask]
  | writeIfMatch path data text =>
    obtain ⟨k, c, rfl, rfl⟩ := hcall
    refine explained rfl List.prefix_rfl ?_ (.writeIfMatch k c text .error) h rfl
    rw [answer, hd, Fault.write]
  | deleteFile path =>
    obtain ⟨k, rfl⟩ := hcall
    refine explained rfl List.prefix_rfl ?_ (.deleteFile k false) h rfl
    rw [answer, hd, Fault.write]
  | check path =>
    obtain ⟨k, rfl⟩ := hcall
    refine explained rfl List.prefix_rfl ?_ (.check k false) h rfl
    rw [answer, hd, Fault.ask]
  | listObjects pre =>
    obtain ⟨table, rfl⟩ := hcall
    refine explained rfl List.prefix_rfl ?_ (.listObjects_none table) h rfl
    rw [answer, hd, Fault.ask]
  | storeTime => exact absurd rfl hne

theorem Represents.explain_write (hd : d.fault = .none) (hfits : k.Fits)
    (hroom : j.memory.nextEtag + 1 < 2 ^ 64) :
    n.Explained d ⟨.write (n.path k) (n.encode c), false, j.store.clock⟩ j := by
  have hwrite : j.memory.write j.store.clock (n.path k) (n.encode c) =
      (true, (j.memory.store j.store.clock (n.path k) (n.encode c)).written _) := rfl
  refine explained hwrite (List.prefix_append _ _) ?_ (.write k c true)
    ((h.put hfits hroom).counted rfl rfl) rfl
  rw [answer, hd, Fault.write]

theorem Represents.explain_writeAtomic (hd : d.fault = .none) (hfits : k.Fits)
    (hroom : j.memory.nextEtag + 1 < 2 ^ 64) :
    n.Explained d ⟨.writeAtomic (n.path k) (n.encode c), false, j.store.clock⟩ j := by
  have hget := h.shared k
  cases hobject : j.store.get k with
  | some o =>
    rw [hobject] at hget
    have hwrite : j.memory.writeAtomic j.store.clock (n.path k) (n.encode c) =
        ((.alreadyExists, none), j.memory) := by
      rw [MemoryConnector.writeAtomic, hget]
      rfl
    refine explained hwrite List.prefix_rfl ?_ (.writeAtomic k c .alreadyExists 0) h rfl
    rw [answer, hd, Fault.write, hobject]
  | none =>
    rw [hobject] at hget
    have htext : ((j.memory.store j.store.clock (n.path k) (n.encode c)).objects.get
        (n.path k)).map (·.etag) =
          etagText (j.etags ++ [MemoryConnector.etagText (j.memory.nextEtag + 1)])
            (j.store.nextEtag + 1) := by
      rw [get_store _ _ hroom, if_pos rfl, ← h.length, etagText_concat]
      rfl
    have hwrite : j.memory.writeAtomic j.store.clock (n.path k) (n.encode c) =
        ((.ok, etagText (j.etags ++ [MemoryConnector.etagText (j.memory.nextEtag + 1)])
            (j.store.nextEtag + 1)),
          (j.memory.store j.store.clock (n.path k) (n.encode c)).written (n.encode c).length) := by
      rw [MemoryConnector.writeAtomic, hget, ← htext]
      rfl
    refine explained hwrite (List.prefix_append _ _) ?_ (.writeAtomic k c .ok _)
      ((h.put hfits hroom).counted rfl rfl) rfl
    rw [answer, hd, Fault.write, hobject]

theorem Represents.explain_read2 (hd : d.fault = .none) :
    n.Explained d ⟨.read2 (n.path k), false, clock⟩ j := by
  have hget := h.shared k
  cases hobject : j.store.get k with
  | none =>
    rw [hobject] at hget
    have hread : j.memory.read2 (n.path k) = (none, j.memory) := by
      rw [MemoryConnector.read2, hget]
      rfl
    refine explained hread List.prefix_rfl ?_ (.read2 k none) h rfl
    rw [answer, hd, Fault.ask, hobject]
  | some o =>
    rw [hobject] at hget
    have hread : j.memory.read2 (n.path k) =
        (some (n.encode o.content), j.memory.read (n.encode o.content).length) := by
      rw [MemoryConnector.read2, hget]
      rfl
    refine explained hread List.prefix_rfl ?_ (.read2 k (some o)) (h.counted rfl rfl) rfl
    rw [answer, hd, Fault.ask, hobject]

/-- The ETags of shared objects have texts. -/
theorem Represents.exists_etagText {o : Object} (ho : j.store.get k = some o) :
    ∃ text, etagText j.etags o.etag = some text ∧ n.object j.etags o =
      ⟨n.encode o.content, text, o.lastModifiedMs⟩ := by
  obtain ⟨hpos, hle⟩ := h.held k o ho
  obtain ⟨e, he⟩ := Nat.exists_eq_add_one.mpr hpos
  have hlt : e < j.etags.length := by
    rw [h.length, ← Nat.succ_le_iff, Nat.succ_eq_add_one, ← he]
    exact hle
  have htext : etagText j.etags o.etag = some j.etags[e] := by
    rw [he]
    exact List.getElem?_eq_getElem hlt
  refine ⟨_, htext, ?_⟩
  rw [object, htext]
  rfl

theorem Represents.explain_readVersioned (hd : d.fault = .none) :
    n.Explained d ⟨.readVersioned (n.path k), false, clock⟩ j := by
  have hget := h.shared k
  cases hobject : j.store.get k with
  | none =>
    rw [hobject] at hget
    have hread : j.memory.readVersioned (n.path k) = ((none, {}), j.memory) := by
      rw [MemoryConnector.readVersioned, hget]
      rfl
    refine explained hread List.prefix_rfl ?_ (.readVersioned_none k) h rfl
    rw [answer, hd, Fault.ask, hobject]
  | some o =>
    obtain ⟨text, htext, hobj⟩ := h.exists_etagText hobject
    rw [hobject, Option.map_some, hobj] at hget
    have hread : j.memory.readVersioned (n.path k) =
        ((some (n.encode o.content), ⟨text, o.lastModifiedMs⟩),
          j.memory.read (n.encode o.content).length) := by
      rw [MemoryConnector.readVersioned, hget]
    refine explained hread List.prefix_rfl ?_ (.readVersioned k o text htext)
      (h.counted rfl rfl) rfl
    rw [answer, hd, Fault.ask, hobject]

/-- An ETag that another write has replaced does not match: no two writes have one text. -/
theorem Represents.explain_writeIfMatch (hd : d.fault = .none) (text : ByteString)
    (hroom : j.memory.nextEtag + 1 < 2 ^ 64) :
    n.Explained d ⟨.writeIfMatch (n.path k) (n.encode c) text, false, j.store.clock⟩ j := by
  have hget := h.shared k
  cases hobject : j.store.get k with
  | none =>
    rw [hobject] at hget
    have hwrite : j.memory.writeIfMatch j.store.clock (n.path k) (n.encode c) text =
        (.preconditionFailed, j.memory) := by
      rw [MemoryConnector.writeIfMatch, hget]
      rfl
    refine explained hwrite List.prefix_rfl ?_ (.writeIfMatch k c text .preconditionFailed) h rfl
    rw [answer, hd, Fault.write, hobject]
  | some o =>
    obtain ⟨text', htext, hobj⟩ := h.exists_etagText hobject
    rw [hobject, Option.map_some, hobj] at hget
    have hmatch : o.etag = etagNumber j.etags text ↔ text' = text := by
      rw [← etagText_eq_some h.nodup (h.held k o hobject).1, htext, Option.some_inj]
    by_cases heq : text' = text
    · have hwrite : j.memory.writeIfMatch j.store.clock (n.path k) (n.encode c) text =
          (.ok, (j.memory.store j.store.clock (n.path k) (n.encode c)).written
            (n.encode c).length) := by
        rw [MemoryConnector.writeIfMatch, hget]
        exact if_neg (not_not.mpr heq)
      -- the version was written before, so its number fits
      have hfits : k.Fits := h.fits k (hobject ▸ rfl)
      refine explained hwrite (List.prefix_append _ _) ?_ (.writeIfMatch k c text .ok)
        ((h.put hfits hroom).counted rfl rfl) rfl
      rw [answer, hd, Fault.write, hobject]
      exact if_pos (hmatch.mpr heq)
    · have hwrite : j.memory.writeIfMatch j.store.clock (n.path k) (n.encode c) text =
          (.preconditionFailed, j.memory) := by
        rw [MemoryConnector.writeIfMatch, hget]
        exact if_pos heq
      refine explained hwrite List.prefix_rfl ?_ (.writeIfMatch k c text .preconditionFailed) h rfl
      rw [answer, hd, Fault.write, hobject]
      exact if_neg fun he ↦ heq (hmatch.mp he)

theorem Represents.explain_deleteFile (hd : d.fault = .none) :
    n.Explained d ⟨.deleteFile (n.path k), false, clock⟩ j := by
  have hdelete : j.memory.deleteFile (n.path k) = (true, (j.memory.deleteFile (n.path k)).2) := rfl
  refine explained hdelete List.prefix_rfl ?_ (.deleteFile k true) (h.erase k) rfl
  rw [answer, hd, Fault.write]

theorem Represents.explain_check (hd : d.fault = .none) :
    n.Explained d ⟨.check (n.path k), false, clock⟩ j := by
  have hget := h.shared k
  cases hobject : j.store.get k with
  | none =>
    rw [hobject] at hget
    have hcheck : j.memory.check (n.path k) = (false, j.memory) := by
      rw [MemoryConnector.check, hget]
      rfl
    refine explained hcheck List.prefix_rfl ?_ (.check k false) h rfl
    rw [answer, hd, Fault.ask, hobject]
    rfl
  | some o =>
    rw [hobject] at hget
    have hcheck : j.memory.check (n.path k) =
        (true, j.memory.read (n.encode o.content).length) := by
      rw [MemoryConnector.check, hget]
      rfl
    refine explained hcheck List.prefix_rfl ?_ (.check k true) (h.counted rfl rfl) rfl
    rw [answer, hd, Fault.ask, hobject]
    rfl

theorem Represents.explain_listObjects (hd : d.fault = .none) :
    n.Explained d ⟨.listObjects (n.logPath table), false, clock⟩ j := by
  have hlist : (j.memory.listObjects (n.logPath table)).map some id =
      (some (j.memory.listObjects (n.logPath table)).1,
        (j.memory.listObjects (n.logPath table)).2) := rfl
  obtain ⟨hobjects, hnext⟩ := listObjects_objects j.memory (n.logPath table)
  refine explained hlist List.prefix_rfl ?_ (.listObjects table _ _ (h.shows table))
    (h.counted hobjects hnext) rfl
  rw [answer, hd, Fault.ask]

/-- The store's time does not depend on faults. -/
theorem Represents.explain_storeTime (fails : Bool) (hskew : d.skew = 0)
    (huncertainty : d.uncertainty = j.memory.clockUncertaintyMs) :
    n.Explained d ⟨.storeTime, fails, j.store.clock⟩ j := by
  refine explained rfl List.prefix_rfl ?_ (.storeTime _) h rfl
  rw [answer, hskew, huncertainty, Int.add_zero]

theorem Represents.explain {r : MemoryConnector.Request} (hcall : n.Shared r.call)
    (hclock : j.store.clock = r.clock) (hroom : j.memory.nextEtag + 1 < 2 ^ 64)
    (hd : d.fault = if r.fails then .failed else .none) (hskew : d.skew = 0)
    (huncertainty : d.uncertainty = j.memory.clockUncertaintyMs) : n.Explained d r j := by
  obtain ⟨call, fails, clock⟩ := r
  obtain rfl : j.store.clock = clock := hclock
  by_cases htime : call = .storeTime
  · exact htime ▸ h.explain_storeTime fails hskew huncertainty
  · cases fails with
    | true => exact h.explain_failed hd hcall htime
    | false =>
      cases call with
      | write path data =>
        obtain ⟨k, c, hfits, rfl, rfl⟩ := hcall
        exact h.explain_write hd hfits hroom
      | writeAtomic path data =>
        obtain ⟨k, c, hfits, rfl, rfl⟩ := hcall
        exact h.explain_writeAtomic hd hfits hroom
      | read2 path =>
        obtain ⟨k, rfl⟩ := hcall
        exact h.explain_read2 hd
      | readVersioned path =>
        obtain ⟨k, rfl⟩ := hcall
        exact h.explain_readVersioned hd
      | writeIfMatch path data text =>
        obtain ⟨k, c, rfl, rfl⟩ := hcall
        exact h.explain_writeIfMatch hd text hroom
      | deleteFile path =>
        obtain ⟨k, rfl⟩ := hcall
        exact h.explain_deleteFile hd
      | check path =>
        obtain ⟨k, rfl⟩ := hcall
        exact h.explain_check hd
      | listObjects pre =>
        obtain ⟨table, rfl⟩ := hcall
        exact h.explain_listObjects hd
      | storeTime => exact absurd rfl htime

end Requests

/-! ## Runs -/

/-- The path that a call may store an object under -/
def stores : MemoryConnector.Call → Option ByteString
  | .write path _ => some path
  | .writeAtomic path _ => some path
  | .writeIfMatch path _ _ => some path
  | _ => none

/-- **What a request does**: nothing but counting, or it stores an object, or it deletes one. -/
theorem perform_cases (r : MemoryConnector.Request) (m : MemoryConnector) :
    ((MemoryConnector.perform r m).2.objects = m.objects ∧
        (MemoryConnector.perform r m).2.nextEtag = m.nextEtag) ∨
      (∃ path content, stores r.call = some path ∧
        (MemoryConnector.perform r m).2.objects = (m.store r.clock path content).objects ∧
        (MemoryConnector.perform r m).2.nextEtag = (m.store r.clock path content).nextEtag) ∨
      ∃ path, r.call = .deleteFile path ∧
        (MemoryConnector.perform r m).2 = (m.deleteFile path).2 := by
  obtain ⟨call, fails, clock⟩ := r
  cases fails with
  | true => cases call <;> exact .inl ⟨rfl, rfl⟩
  | false =>
    cases call with
    | write path data => exact .inr (.inl ⟨path, data, rfl, rfl, rfl⟩)
    | writeAtomic path data =>
      have hperform : MemoryConnector.perform ⟨.writeAtomic path data, false, clock⟩ m =
          m.writeAtomic clock path data := rfl
      rw [hperform, MemoryConnector.writeAtomic]
      split_ifs
      · exact .inl ⟨rfl, rfl⟩
      · exact .inr (.inl ⟨path, data, rfl, rfl, rfl⟩)
    | read2 path =>
      have hperform : MemoryConnector.perform ⟨.read2 path, false, clock⟩ m = m.read2 path := rfl
      rw [hperform, MemoryConnector.read2]
      split <;> exact .inl ⟨rfl, rfl⟩
    | readVersioned path =>
      have hperform : MemoryConnector.perform ⟨.readVersioned path, false, clock⟩ m =
          m.readVersioned path := rfl
      rw [hperform, MemoryConnector.readVersioned]
      split <;> exact .inl ⟨rfl, rfl⟩
    | writeIfMatch path data text =>
      have hperform : MemoryConnector.perform ⟨.writeIfMatch path data text, false, clock⟩ m =
          m.writeIfMatch clock path data text := rfl
      rw [hperform, MemoryConnector.writeIfMatch]
      split
      · exact .inl ⟨rfl, rfl⟩
      · split_ifs
        · exact .inl ⟨rfl, rfl⟩
        · exact .inr (.inl ⟨path, data, rfl, rfl, rfl⟩)
    | deleteFile path => exact .inr (.inr ⟨path, rfl, rfl⟩)
    | check path =>
      have hperform : MemoryConnector.perform ⟨.check path, false, clock⟩ m = m.check path := rfl
      rw [hperform, MemoryConnector.check]
      split <;> exact .inl ⟨rfl, rfl⟩
    | listObjects pre => exact .inl (listObjects_objects m pre)
    | storeTime => exact .inl ⟨rfl, rfl⟩

theorem foreign_of_stores {call : MemoryConnector.Call} (hcall : n.Other call)
    (hpath : stores call = some path) : n.Foreign path := by
  cases call with
  | write path' data => exact Option.some.inj hpath ▸ hcall
  | writeAtomic path' data => exact Option.some.inj hpath ▸ hcall
  | writeIfMatch path' data text => exact Option.some.inj hpath ▸ hcall
  | read2 | readVersioned | deleteFile | check | listObjects | storeTime => cases hpath

/-- A request hands out at most one ETag. -/
theorem nextEtag_perform_le (r : MemoryConnector.Request) (m : MemoryConnector) :
    (MemoryConnector.perform r m).2.nextEtag ≤ m.nextEtag + 1 := by
  rcases perform_cases r m with ⟨-, hnext⟩ | ⟨path, content, -, -, hnext⟩ | ⟨path, -, hdelete⟩
  · exact hnext.trans_le (Nat.le_succ _)
  · exact hnext.trans_le (Nat.mod_le _ _)
  · rw [hdelete]
    exact Nat.le_succ _

/-- **Calls on other objects** leave the shared objects as they are. -/
theorem Represents.perform_other (h : n.Represents j) {r : MemoryConnector.Request}
    (hcall : n.Other r.call) (hroom : j.memory.nextEtag + 1 < 2 ^ 64) :
    n.Represents ⟨(MemoryConnector.perform r j.memory).2, j.store, j.etags⟩ := by
  rcases perform_cases r j.memory with ⟨hobjects, hnext⟩ |
    ⟨path, content, hpath, hobjects, hnext⟩ | ⟨path, hdelete, hperform⟩
  · exact h.counted hobjects hnext
  · exact (h.put_other (foreign_of_stores hcall hpath) hroom).counted hobjects hnext
  · rw [hdelete] at hcall
    rw [hperform]
    exact h.erase_other hcall

/-- What the environment of the other store does: it waits until the time of the request, and makes
it fail if it fails. -/
def choice (r : MemoryConnector.Request) (j : Joint) : Choice :=
  { delay := (r.clock - j.store.clock).toNat
    fault := if r.fails then .failed else .none
    uncertainty := j.memory.clockUncertaintyMs }

variable {r : MemoryConnector.Request} {faults : Bool}

/-- **One step.** -/
theorem Represents.step (h : n.Represents j) (hcall : n.Shared r.call ∨ n.Other r.call)
    (hclock : j.store.clock ≤ r.clock) (hroom : j.memory.nextEtag + 1 < 2 ^ 64)
    (hfaults : r.fails = true → faults = true) :
    ∃ j', n.Step faults j r j' ∧ n.Represents j' ∧ j'.store.clock ≤ r.clock ∧
      j'.memory.nextEtag ≤ j.memory.nextEtag + 1 := by
  rcases hcall with hcall | hcall
  · have hnow : (j.store.wait (choice r j).delay).clock = r.clock := by
      show j.store.clock + ((r.clock - j.store.clock).toNat : ℤ) = r.clock
      rw [Int.toNat_of_nonneg (Int.sub_nonneg.mpr hclock), add_sub_cancel]
    obtain ⟨call, response, store, etags, hetags, hanswer, hmatches, hrep, hend⟩ :=
      (h.wait (choice r j).delay).explain (d := choice r j) hcall hnow hroom rfl rfl rfl
    have hserve : serve faults 0 (choice r j) call j.store = some (response, store) := by
      rw [serve, if_pos, hanswer]
      cases hfails : r.fails with
      | false => exact .inl (by rw [choice, hfails]; rfl)
      | true => exact .inr (hfaults hfails)
    exact ⟨_, .shared 0 _ call response store etags hetags hserve hmatches, hrep,
      (hend.trans hnow).le, nextEtag_perform_le r j.memory⟩
  · exact ⟨_, .other hcall, h.perform_other hcall hroom, hclock, nextEtag_perform_le r j.memory⟩

end Represents

/-- The empty stores. -/
theorem represents_empty (n : Naming) (clock : ℤ) : n.Represents ⟨{}, ⟨[], 0, clock⟩, []⟩ where
  shared _ := rfl
  fits _ h := by cases h
  others _ h := by cases h
  length := rfl
  nodup := List.nodup_nil
  issued _ h := by cases h
  held _ _ h := by cases h

end Naming

/-- **The in-memory store serves as the interface promises.** Take any sequence of calls on shared
objects and on others, at times that do not go back, any of which may fail. Its responses are those
of a run of the store of `Connector.lean`: what is read was written last, `write_atomic` only
creates, `write_if_match` replaces only what its ETag names, and a listing shows the versions of its
table. -/
theorem memoryConnector_serves {n : Naming} {j : Naming.Joint} {rs : List MemoryConnector.Request}
    {faults : Bool} (h : n.Represents j) (hcalls : ∀ r ∈ rs, n.Shared r.call ∨ n.Other r.call)
    (hclock : (j.store.clock :: rs.map (·.clock)).Pairwise (· ≤ ·))
    (hroom : j.memory.nextEtag + rs.length < 2 ^ 64)
    (hfaults : ∀ r ∈ rs, r.fails = true → faults = true) :
    ∃ j', n.Run faults j rs j' ∧ n.Represents j' := by
  induction rs generalizing j with
  | nil => exact ⟨j, .nil j, h⟩
  | cons r rs ih =>
    obtain ⟨hnow, hlater⟩ := List.pairwise_cons.mp hclock
    obtain ⟨hafter, hrest⟩ := List.pairwise_cons.mp hlater
    rw [List.length_cons] at hroom
    obtain ⟨j₁, hstep, h₁, hclock₁, hnext₁⟩ := h.step (hcalls r List.mem_cons_self)
      (hnow _ List.mem_cons_self) (by omega) (hfaults r List.mem_cons_self)
    -- the clock of the other store has not passed `r`, so the later requests still come later
    obtain ⟨j', hrun, h'⟩ := ih h₁ (fun r' hr' ↦ hcalls r' (List.mem_cons_of_mem _ hr'))
      (List.pairwise_cons.mpr ⟨fun t ht ↦ hclock₁.trans (hafter t ht), hrest⟩) (by omega)
      fun r' hr' ↦ hfaults r' (List.mem_cons_of_mem _ hr')
    exact ⟨j', .cons hstep hrun, h'⟩

/-! ### A run -/

/-- The tables `0/`, `1/`, ... -/
def sampleBasePath (table : Table) : ByteString := decimal table ++ ascii "/"

/-- What comes before the slash -/
theorem takeWhile_decimal (table : Table) (rest : ByteString) :
    (decimal table ++ (47 :: rest)).takeWhile ByteString.isDigit = decimal table := by
  rw [List.takeWhile_append_of_pos fun c hc ↦ ByteString.isDigit_of_mem_decimal hc,
    List.takeWhile_cons_of_neg (by decide), List.append_nil]

theorem takeWhile_sampleBasePath {table : Table} {path : ByteString}
    (h : sampleBasePath table ++ logDir <+: path) :
    path.takeWhile ByteString.isDigit = decimal table := by
  obtain ⟨rest, rfl⟩ := h
  have hpath : sampleBasePath table ++ logDir ++ rest =
      decimal table ++ (47 :: (logDir ++ rest)) := by
    rw [sampleBasePath, List.append_assoc, List.append_assoc]
    rfl
  rw [hpath, takeWhile_decimal]

/-- The global log has a line for each table. -/
def sampleEncode : Content → ByteString
  | .globalLog lines => lines.flatMap fun line ↦
      sampleBasePath line.1 ++ ascii " " ++ decimal line.2 ++ ascii "\n"
  | _ => []

def sampleNaming : Naming where
  basePath := sampleBasePath
  globalLogPath := ascii "global.log"
  globalTmpLogPath := ascii "global.tmp"
  encode := sampleEncode
  apart h := by
    have hdecimal := (takeWhile_sampleBasePath h).symm.trans
      (takeWhile_sampleBasePath List.prefix_rfl)
    exact (ByteString.ofDecimal_decimal _).symm.trans
      ((congrArg ByteString.ofDecimal hdecimal).trans (ByteString.ofDecimal_decimal _))
  globalLog_outside table h := ByteString.decimal_ne_nil table (takeWhile_sampleBasePath h).symm
  globalTmpLog_outside table h := ByteString.decimal_ne_nil table (takeWhile_sampleBasePath h).symm
  globalLog_ne := by decide

/-- A data file is not taken for a version. -/
theorem foreign_dataFile : sampleNaming.Foreign (ascii "0/part-0.parquet") := by
  have hparse : parseLogVersion (ascii "0/part-0.parquet") = .ok none := by decide +kernel
  refine ⟨fun k hk ↦ ?_, fun _ _ ↦ hparse⟩
  cases k with
  | version table v =>
    have hname : ByteString.afterLast logDir
        (sampleBasePath table ++ (logDir ++ logFileName v (ascii ".json"))) = some _ :=
      DeltaLog.afterLast_logDir (slash_notMem_logFileName v)
    have hnone : ByteString.afterLast logDir (ascii "0/part-0.parquet") = none := by decide +kernel
    have hpath : ascii "0/part-0.parquet" =
        sampleBasePath table ++ (logDir ++ logFileName v (ascii ".json")) :=
      hk.trans (List.append_assoc _ _ _)
    rw [← hpath, hnone] at hname
    exact absurd hname.symm (Option.some_ne_none _)
  | globalLog => exact absurd hk (by decide)
  | globalTmpLog => exact absurd hk (by decide)

/-- The global log is created, a data file is written beside it, and of two clients that replace the
log with the first ETag the second one is refused. -/
def sampleRequests : List MemoryConnector.Request :=
  [⟨.writeAtomic (ascii "global.log") [], false, 10⟩,
    ⟨.write (ascii "0/part-0.parquet") (ascii "rows"), false, 11⟩,
    ⟨.writeIfMatch (ascii "global.log") (ascii "0/ 7\n") (ascii "\"etag-1\""), false, 12⟩,
    ⟨.writeIfMatch (ascii "global.log") (ascii "1/ 3\n") (ascii "\"etag-1\""), false, 12⟩,
    ⟨.listObjects (ascii "0/_delta_log/"), true, 13⟩]

theorem sampleRequests_calls :
    ∀ r ∈ sampleRequests, sampleNaming.Shared r.call ∨ sampleNaming.Other r.call := by
  intro r hr
  simp only [sampleRequests, List.mem_cons, List.not_mem_nil, or_false] at hr
  rcases hr with rfl | rfl | rfl | rfl | rfl
  · exact .inl ⟨.globalLog, .globalLog [], trivial, rfl, rfl⟩
  · exact .inr foreign_dataFile
  · exact .inl ⟨.globalLog, .globalLog [(0, 7)], rfl, by decide⟩
  · exact .inl ⟨.globalLog, .globalLog [(1, 3)], rfl, by decide⟩
  · exact .inl ⟨0, by decide⟩

theorem memoryConnector_serves_sample :
    ∃ j', sampleNaming.Run true ⟨{}, ⟨[], 0, 5⟩, []⟩ sampleRequests j' ∧
      sampleNaming.Represents j' :=
  memoryConnector_serves (Naming.represents_empty sampleNaming 5) sampleRequests_calls
    (by decide) (by decide) fun _ _ _ ↦ rfl

end LakeVilla
