import SecureTransfer.ApproachB.KeyValue
import Mathlib.Algebra.Order.BigOperators.Group.List

/-! # LIST through the client

Which of the keys that were put a client finds in its list. The broker leaves out what
looks like a temporary file, and the client splits the joined keys at newlines, so a key
that ends in ".tmp" or in a newline is lost on the way.
-/

namespace SecureTransfer.ApproachB

open Library

variable {repr : String → String}

def StartsWith (start key : String) : Prop := start.toList <+: key.toList

def EndsWith (key suffix : String) : Prop := suffix.toList <:+ key.toList

/-! ## Accepted keys -/

/-- In an accepted key a newline stands last. -/
theorem safePath_newline {key : String} {path : BlobPath} (safe : safePath key = some path)
    (newline : '\n' ∈ key.toList) : EndsWith key "\n" := by
  have parts := (safePath_parts safe).1
  obtain ⟨space, bare, _⟩ := safePath_segments safe
  have name : '\n' ∈ path.2.toList := by
    rw [parts] at newline
    rcases List.mem_append.mp newline with before | after
    · exact absurd (isSegment_class space _ before) (by decide)
    · rcases List.mem_cons.mp after with slash | inside
      · exact absurd slash (by decide)
      · exact inside
  by_cases last : path.2.toList.getLast? = some '\n'
  · obtain ⟨front, split⟩ := List.getLast?_eq_some_iff.mp last
    rw [EndsWith, parts, split]
    exact ⟨path.1.toList ++ '/' :: front, by simp⟩
  · rw [bareName, if_neg last] at bare
    exact absurd (isSegment_class bare _ name) (by decide)

theorem isTmp_iff {key : String} {path : BlobPath} (safe : safePath key = some path) :
    isTmp path.2 = true ↔ EndsWith key ".tmp" := by
  obtain ⟨parts, _, noSlash⟩ := safePath_parts safe
  rw [isTmp, List.isSuffixOf_iff_suffix, EndsWith, parts]
  constructor
  · intro suffix
    exact suffix.trans ⟨path.1.toList ++ ['/'], by simp⟩
  · intro suffix
    have name : '/' :: path.2.toList <:+ path.1.toList ++ '/' :: path.2.toList := List.suffix_append _ _
    rcases List.suffix_or_suffix_of_suffix suffix name with inside | around
    · rcases List.suffix_cons_iff.mp inside with whole | inside
      · exact absurd (List.cons.inj whole).1 (by decide)
      · exact inside
    · exact absurd (around.subset List.mem_cons_self) (by decide)

/-! ## What the broker lists -/

theorem mem_list {store : Storage} {start key : String} :
    key ∈ store.list start ↔
      (∃ data, store.get key = some data) ∧ ¬ EndsWith key ".tmp" ∧ StartsWith start key := by
  have listed : key ∈ store.list start ↔
      (∃ path, (path ∈ store.blobs ∧ isTmp path.2 = false) ∧ path.1 ++ "/" ++ path.2 = key) ∧
        StartsWith start key := by
    simp [Storage.list, StartsWith, AList.mem_keys, List.isPrefixOf_iff_prefix]
  rw [listed]
  constructor
  · rintro ⟨⟨path, ⟨member, visible⟩, rfl⟩, starts⟩
    obtain ⟨key, safe⟩ := store.legal path member
    have joined : path.1 ++ "/" ++ path.2 = key := by
      apply String.toList_injective
      rw [(safePath_parts safe).1]
      simp
    obtain ⟨data, present⟩ := Option.isSome_iff_exists.mp (AList.lookup_isSome.mpr member)
    refine ⟨⟨data, Storage.get_of_find present⟩, fun tmp => ?_, starts⟩
    rw [joined, ← isTmp_iff safe, visible] at tmp
    cases tmp
  · rintro ⟨⟨data, present⟩, visible, starts⟩
    rw [Storage.get, Option.bind_eq_some_iff] at present
    obtain ⟨path, safe, found⟩ := present
    refine ⟨⟨path, ⟨AList.lookup_isSome.mp (Option.isSome_iff_exists.mpr ⟨data, found⟩), ?_⟩, ?_⟩, starts⟩
    · rwa [← isTmp_iff safe, Bool.not_eq_true] at visible
    · apply String.toList_injective
      rw [(safePath_parts safe).1]
      simp

theorem list_nodup (store : Storage) (start : String) : (store.list start).Nodup := by
  simp only [Storage.list]
  refine List.Nodup.filter _ (List.Nodup.map_on ?_ ?_)
  · intro path member other member' same
    have legal : ∀ path' ∈ (store.blobs.keys.filter fun path => !isTmp path.2).mergeSort (fun a b =>
        decide (a.1 < b.1 ∨ (a.1 = b.1 ∧ a.2 ≤ b.2))),
        '/' ∉ path'.2.toList ∧ ∃ key, safePath key = some path' := by
      intro path' inside
      have kept := (List.mem_filter.mp (List.mem_mergeSort.mp inside)).1
      obtain ⟨key, safe⟩ := store.legal path' (AList.mem_keys.mpr kept)
      exact ⟨(safePath_parts safe).2.2, key, safe⟩
    obtain ⟨noSlash, key, safe⟩ := legal path member
    obtain ⟨noSlash', _⟩ := legal other member'
    have joined : path.1 ++ "/" ++ path.2 = key := by
      apply String.toList_injective
      rw [(safePath_parts safe).1]
      simp
    rw [← joined, same] at safe
    exact safePath_suffix noSlash' safe
  · exact (List.mergeSort_perm _ _).nodup_iff.mpr (List.Nodup.filter _ store.blobs.nodupKeys)

/-! ## Keys that were put -/

/-- A PUT of `key` can be carried out. -/
def StoredKey (requests : List Request) (key : String) : Prop :=
  ∃ data, Request.put key data ∈ requests ∧ Storable key data

/-- A PUT of `key` was answered OK. -/
def AnsweredOk (repr : String → String) (calls : List Call) (key : String) : Prop :=
  ∃ before call after, calls = before ++ call :: after ∧ IsPutOf key call.request ∧
    (exchange repr call (storeAfter repr before)).1 = .ok .done

theorem exchange_done {call : Call} {store : Storage} {key : String} {data : Bytes}
    (put : call.request = .put key data) (done : (exchange repr call store).1 = .ok .done) :
    Storable key data := by
  obtain ⟨small, path, safe, stored⟩ := exchange_put put done
  refine ⟨⟨path, safe, fun dot => ?_⟩, small⟩
  unfold Storage.put at stored
  split at stored
  · cases stored
  · rename_i found same
    rw [safe] at same
    cases same
    rw [if_pos dot] at stored
    cases stored

theorem answeredOk_iff {calls : List Call} {key : String} :
    AnsweredOk repr calls key ↔ StoredKey (calls.map Call.request) key := by
  constructor
  · rintro ⟨before, call, after, rfl, ⟨data, put⟩, done⟩
    exact ⟨data, by simp [put], exchange_done put done⟩
  · rintro ⟨data, member, storable⟩
    obtain ⟨call, inside, put⟩ := List.mem_map.mp member
    obtain ⟨before, after, split⟩ := List.append_of_mem inside
    exact ⟨before, call, after, split, ⟨data, put⟩, exchange_storable put storable⟩

/-- A PUT that cannot be carried out changes nothing. -/
theorem exchange_unstorable {call : Call} {store : Storage} {key : String} {data : Bytes}
    (put : call.request = .put key data) (unstorable : ¬ Storable key data) :
    (exchange repr call store).2 = store := by
  by_cases fits : call.request.Fits
  · rw [exchange_store fits, afterStore, put, answer]
    split
    · rfl
    · rename_i legal
      rw [Bool.not_eq_true, Option.isNone_eq_false_iff] at legal
      obtain ⟨path, safe⟩ := Option.isSome_iff_exists.mp legal
      rw [put] at fits
      have dot : path.2 = "." := by
        by_contra named
        exact unstorable ⟨⟨path, safe, named⟩, fits data (by simp [Request.payload])⟩
      have failed : store.put key data = none := by
        unfold Storage.put
        split
        · rfl
        · rename_i found same
          rw [safe] at same
          cases same
          rw [if_pos dot]
      rw [failed]
      rfl
  · rw [exchange_unfit fits]

theorem storedKey_concat {requests : List Request} {r : Request} {key : String} :
    StoredKey (requests ++ [r]) key ↔
      StoredKey requests key ∨ ∃ data, r = .put key data ∧ Storable key data := by
  simp only [StoredKey, List.mem_append, List.mem_singleton, or_and_right, exists_or, eq_comm (a := r)]

/-- The store shows the PUTs that were carried out. -/
theorem shows_stored (repr : String → String) (calls : List Call) : ∃ puts, Shows (storeAfter repr calls) puts ∧
    ∀ key, (∃ r ∈ puts, IsPutOf key r) ↔ StoredKey (calls.map Call.request) key := by
  induction calls using List.reverseRecOn with
  | nil => exact ⟨[], shows_empty, fun key => by simp [StoredKey]⟩
  | append_singleton calls call ih =>
      obtain ⟨puts, shows, stored⟩ := ih
      rw [storeAfter_concat, List.map_append, List.map_cons, List.map_nil]
      by_cases carried : ∃ key data, call.request = .put key data ∧ Storable key data
      · obtain ⟨key, data, put, storable⟩ := carried
        have done : (exchange repr call (storeAfter repr calls)).1 = .ok .done := exchange_storable put storable
        obtain ⟨small, path, safe, after⟩ := exchange_put put done
        refine ⟨puts ++ [.put key data], shows.put small ⟨path, safe⟩ after, fun other => ?_⟩
        have last : IsPutOf other (.put key data) ↔
            ∃ data', call.request = .put other data' ∧ Storable other data' := by
          rw [put]
          refine ⟨?_, fun ⟨data', same, _⟩ => ⟨data', same⟩⟩
          rintro ⟨data', same⟩
          cases same
          exact ⟨data, rfl, storable⟩
        simp only [List.mem_append, List.mem_singleton, or_and_right, exists_or, exists_eq_left]
        rw [stored, storedKey_concat, last]
      · have same : (exchange repr call (storeAfter repr calls)).2 = storeAfter repr calls := by
          by_cases put : ∃ key, IsPutOf key call.request
          · obtain ⟨key, data, put⟩ := put
            exact exchange_unstorable put fun storable => carried ⟨key, data, put, storable⟩
          · exact exchange_reads (not_exists.mp put)
        refine ⟨puts, by rw [same]; exact shows, fun other => ?_⟩
        rw [stored, storedKey_concat]
        exact ⟨.inl, fun either => either.resolve_right fun ⟨data, put, storable⟩ =>
          carried ⟨other, data, put, storable⟩⟩

theorem Overwritten.endsWith {requests : List Request} {key : String} (taken : Overwritten requests key) :
    EndsWith key ".tmp" := by
  obtain ⟨_, _, base, _, _, rfl, _⟩ := taken
  rw [EndsWith, String.toList_append]
  exact List.suffix_append _ _

/-- What is there was put, and what was put is there unless its key looks temporary. -/
theorem get_stored (calls : List Call) (key : String) :
    ((∃ data, (storeAfter repr calls).get key = some data) → StoredKey (calls.map Call.request) key) ∧
    (StoredKey (calls.map Call.request) key → ¬ EndsWith key ".tmp" →
      ∃ data, (storeAfter repr calls).get key = some data) := by
  obtain ⟨puts, shows, stored⟩ := shows_stored repr calls
  refine ⟨?_, fun put visible => ?_⟩
  · rintro ⟨data, present⟩
    obtain ⟨path, safe⟩ : ∃ path, safePath key = some path := by
      rw [Storage.get, Option.bind_eq_some_iff] at present
      obtain ⟨path, safe, _⟩ := present
      exact ⟨path, safe⟩
    apply (stored key).mp
    apply latest_some.mp
    refine ⟨data, ?_⟩
    rw [← shows.latest key path safe fun taken => ?_, present]
    rw [shows.overwritten key path safe taken] at present
    cases present
  · obtain ⟨data, there⟩ := latest_some.mpr ((stored key).mpr put)
    obtain ⟨_, _, ⟨path, safe, _⟩, _⟩ := put
    exact ⟨data, (shows.latest key path safe fun taken => visible taken.endsWith).trans there⟩

/-! ## The length of a listing -/

theorem joinLines_length (keys : List String) (some_key : keys ≠ []) :
    (encodeText (joinLines keys)).length + 1 =
      (keys.map fun key => (encodeText key.toList).length + 1).sum := by
  induction keys with
  | nil => exact absurd rfl some_key
  | cons key keys ih =>
      cases keys with
      | nil => simp [joinLines]
      | cons second rest =>
          have joined :
              joinLines (key :: second :: rest) = key.toList ++ '\n' :: joinLines (second :: rest) := by
            simp [joinLines]
          have newline : (String.utf8EncodeChar '\n').length = 1 := rfl
          rw [List.map_cons, List.sum_cons, ← ih (by simp), joined]
          simp only [encodeText, List.flatMap_append, List.flatMap_cons, List.length_append, newline]
          omega

theorem joinLines_sendable {keys all : List String} (distinct : keys.Nodup) (within : keys ⊆ all)
    (small : Sendable (encodeText (joinLines all))) : Sendable (encodeText (joinLines keys)) := by
  by_cases none_left : keys = []
  · rw [none_left]
    exact text_sendable (Nat.zero_le _)
  · obtain ⟨key, member⟩ := List.exists_mem_of_ne_nil _ none_left
    have some_key : all ≠ [] := List.ne_nil_of_mem (within member)
    obtain ⟨same, perm, sub⟩ := List.subperm_of_subset distinct within
    have le := (sub.map fun key => (encodeText key.toList).length + 1).sum_le_sum fun _ _ => Nat.zero_le _
    rw [(perm.map _).sum_eq, ← joinLines_length keys none_left, ← joinLines_length all some_key] at le
    rw [Sendable] at small ⊢
    omega

/-! ## LIST -/

/-- `list(start)` returns, at any pace, each key whose PUT was answered OK once, and nothing
    that was not put. -/
def ListExact (repr : String → String) (calls : List Call) (start : String) : Prop :=
  ∀ brokerPace clientPace, ∃ keys,
    (exchange repr ⟨.list start, brokerPace, clientPace⟩ (storeAfter repr calls)).1 = .ok (.keys keys) ∧
    (∀ key, AnsweredOk repr calls key → StartsWith start key → keys.count key = 1) ∧
    ∀ key ∈ keys, ∃ call ∈ calls, IsPutOf key call.request

/-- No key to be listed looks like a temporary name or ends its line early, and neither the
    command nor the joined keys are too long for a frame. -/
structure Listable (requests : List Request) (start : String) : Prop where
  plain : ∀ key, StoredKey requests key → StartsWith start key → ¬ EndsWith key ".tmp" ∧ ¬ EndsWith key "\n"
  command : (Request.list start).Fits
  body : ∀ keys : List String, keys.Nodup → (∀ key ∈ keys, StoredKey requests key ∧ StartsWith start key) →
    Sendable (encodeText (joinLines keys))

/-- What is split at has gone from the parts. -/
theorem notMem_splitOn {separator : Char} (text : List Char) :
    ∀ part ∈ text.splitOn separator, separator ∉ part := by
  induction text with
  | nil => simp
  | cons c text ih =>
      rw [List.splitOn_cons_eq_if_modifyHead]
      split
      · exact fun part member => (List.mem_cons.mp member).elim (fun empty => by simp [empty]) (ih part)
      · rename_i other
        cases parts : text.splitOn separator with
        | nil => exact absurd parts (List.splitOn_ne_nil _ _)
        | cons first later =>
            rw [parts] at ih
            intro part member
            rcases List.mem_cons.mp member with rfl | inside
            · rw [List.mem_cons, not_or]
              exact ⟨fun same => other (by simp [same]), ih first List.mem_cons_self⟩
            · exact ih part (List.mem_cons_of_mem _ inside)

theorem newline_not_in_line {key line : String} (inside : line ∈ splitLines key) : '\n' ∉ line.toList := by
  obtain ⟨part, member, rfl⟩ := List.mem_map.mp inside
  rw [String.toList_ofList]
  exact notMem_splitOn _ part (List.mem_filter.mp member).1

theorem list_stored {calls : List Call} {start key : String}
    (listed : key ∈ (storeAfter repr calls).list start) :
    StoredKey (calls.map Call.request) key ∧ StartsWith start key := by
  obtain ⟨present, _, starts⟩ := mem_list.mp listed
  exact ⟨(get_stored calls key).1 present, starts⟩

theorem listed {calls : List Call} {start key : String} (stored : StoredKey (calls.map Call.request) key)
    (starts : StartsWith start key) (visible : ¬ EndsWith key ".tmp") :
    key ∈ (storeAfter repr calls).list start :=
  mem_list.mpr ⟨(get_stored calls key).2 stored visible, visible, starts⟩

/-- A listed key without a newline is a line of its own. -/
theorem splitLines_listed {store : Storage} {start key : String} (listed : key ∈ store.list start)
    (whole : ¬ EndsWith key "\n") : splitLines key = [key] := by
  obtain ⟨⟨data, present⟩, _⟩ := mem_list.mp listed
  rw [Storage.get, Option.bind_eq_some_iff] at present
  obtain ⟨path, safe, _⟩ := present
  refine splitLines_single ?_ fun newline => whole (safePath_newline safe newline)
  rw [(safePath_parts safe).1]
  exact List.append_ne_nil_of_right_ne_nil _ (List.cons_ne_nil _ _)

theorem Listable.exact {calls : List Call} {start : String}
    (listable : Listable (calls.map Call.request) start) : ListExact repr calls start := by
  intro brokerPace clientPace
  let call : Call := ⟨.list start, brokerPace, clientPace⟩
  let store := storeAfter repr calls
  have answered : answer repr store call.request =
      some (store, [encodeText "OK".toList, encodeText (joinLines (store.list start))]) := rfl
  have lines : (store.list start).flatMap splitLines = store.list start := by
    have single : ∀ key ∈ store.list start, splitLines key = [key] := by
      intro key member
      obtain ⟨stored, starts⟩ := list_stored member
      exact splitLines_listed member (listable.plain key stored starts).2
    rw [List.flatMap_congr single, List.flatMap_singleton']
  refine ⟨store.list start, ?_, fun key ok starts => ?_, fun key member => ?_⟩
  · have fits : call.request.Fits := listable.command
    have body : Sendable (encodeText (joinLines (store.list start))) :=
      listable.body _ (list_nodup store start) fun key => list_stored
    have ok_sendable : Sendable (encodeText "OK".toList) := text_sendable (by simp)
    rw [exchange_answer fits answered
      (List.forall_mem_cons.mpr ⟨ok_sendable, List.forall_mem_singleton.mpr body⟩)]
    exact congrArg (fun keys => Except.ok (Value.keys keys)) lines
  · have stored := answeredOk_iff.mp ok
    exact List.count_eq_one_of_mem (list_nodup store start)
      (listed stored starts (listable.plain key stored starts).1)
  · obtain ⟨⟨data, put, _⟩, _⟩ := list_stored member
    obtain ⟨call, inside, same⟩ := List.mem_map.mp put
    exact ⟨call, inside, data, same⟩

theorem ListExact.listable {calls : List Call} {start : String} (exact : ListExact repr calls start) :
    Listable (calls.map Call.request) start := by
  obtain ⟨keys, returned, once, _⟩ := exact [] []
  obtain ⟨fits, found, answered, small, value⟩ := exchange_ok returned
  obtain ⟨_, frames⟩ := Prod.mk.inj (Option.some.inj answered)
  subst frames
  cases value
  have visible : ∀ key, StoredKey (calls.map Call.request) key → StartsWith start key →
      ∃ line ∈ (storeAfter repr calls).list start, key ∈ splitLines line := by
    intro key stored starts
    have count := once key (answeredOk_iff.mpr stored) starts
    exact List.mem_flatMap.mp (List.count_pos_iff.mp (by rw [count]; exact Nat.one_pos))
  have whole : ∀ key, StoredKey (calls.map Call.request) key → StartsWith start key → ¬ EndsWith key "\n" := by
    intro key stored starts newline
    obtain ⟨line, _, inside⟩ := visible key stored starts
    exact newline_not_in_line inside (newline.subset List.mem_cons_self)
  have plain : ∀ key, StoredKey (calls.map Call.request) key → StartsWith start key →
      ¬ EndsWith key ".tmp" ∧ ¬ EndsWith key "\n" := by
    intro key stored starts
    refine ⟨fun tmp => ?_, whole key stored starts⟩
    obtain ⟨line, member, inside⟩ := visible key stored starts
    -- the line is a key on the list itself, so it is whole
    obtain ⟨stored', starts'⟩ := list_stored member
    rw [splitLines_listed member (whole line stored' starts'), List.mem_singleton] at inside
    rw [inside] at tmp
    exact (mem_list.mp member).2.1 tmp
  refine ⟨plain, fits, fun keys distinct each => ?_⟩
  refine joinLines_sendable distinct (fun key member => ?_)
    (small (encodeText (joinLines ((storeAfter repr calls).list start))) (by simp))
  obtain ⟨stored, starts⟩ := each key member
  exact listed stored starts (plain key stored starts).1

/-- **LIST is exact** if and only if every key it has to return survives the listing. -/
theorem listExact_iff (calls : List Call) (start : String) :
    ListExact repr calls start ↔ Listable (calls.map Call.request) start :=
  ⟨ListExact.listable, Listable.exact⟩

/-- "n/a" with a newline behind it is a key, and the client cuts the newline off. -/
theorem newline_lost : ¬ ∀ (repr : String → String) (calls : List Call) (start : String),
    ListExact repr calls start := by
  intro claim
  have listable := (claim id [⟨.put "n/a\n" [1], [], []⟩] "n/").listable
  refine (listable.plain "n/a\n" ⟨[1], List.mem_cons_self, ⟨⟨("n", "a\n"), rfl, by decide⟩, ?_⟩⟩ ?_).2 ?_
  · exact show 1 < 2 ^ 64 by decide
  · exact ⟨['a', '\n'], rfl⟩
  · exact ⟨['n', '/', 'a'], rfl⟩

end SecureTransfer.ApproachB
