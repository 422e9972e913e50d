import SecureTransfer.ApproachB.Connection

/-! # The broker as a key-value store

The abstract store is a map from keys to data, which a PUT updates at its key. The
directory shows this map but for one thing: a PUT also removes the blob whose key is its
own with ".tmp" behind it, which is the name it writes to first.
-/

namespace SecureTransfer.ApproachB

open Library

/-! ## The abstract store -/

/-- What each key holds. -/
abbrev KeyValue : Type := String → Option Bytes

def KeyValue.apply (values : KeyValue) : Request → KeyValue
  | .put key data => Function.update values key (some data)
  | _ => values

/-- The data of the latest PUT of each key. -/
def latest (requests : List Request) : KeyValue := requests.foldl KeyValue.apply fun _ => none

theorem latest_concat (requests : List Request) (r : Request) :
    latest (requests ++ [r]) = (latest requests).apply r := by
  rw [latest, List.foldl_append]
  rfl

def IsPutOf (key : String) (r : Request) : Prop := ∃ data, r = .put key data

theorem latest_some {requests : List Request} {key : String} :
    (∃ data, latest requests key = some data) ↔ ∃ r ∈ requests, IsPutOf key r := by
  induction requests using List.reverseRecOn with
  | nil => simp [latest]
  | append_singleton requests r ih =>
      simp only [latest_concat, List.mem_append, List.mem_singleton, or_and_right, exists_or, exists_eq_left]
      rw [← ih]
      cases r with
      | put other data =>
          by_cases same : key = other
          · rw [same, KeyValue.apply, Function.update_self]
            exact iff_of_true ⟨data, rfl⟩ (.inr ⟨data, rfl⟩)
          · rw [KeyValue.apply, Function.update_of_ne same]
            refine ⟨.inl, ?_⟩
            rintro (old | ⟨_, put⟩)
            · exact old
            · cases put
              exact absurd rfl same
      | get other | stat other | list other =>
          refine ⟨.inl, ?_⟩
          rintro (old | ⟨_, put⟩)
          · exact old
          · cases put

/-- After its latest PUT the key was the temporary name of another one that was put. -/
def Overwritten (requests : List Request) (key : String) : Prop :=
  ∃ before after base data, requests = before ++ .put base data :: after ∧ base ++ ".tmp" = key ∧
    (∃ r ∈ before, IsPutOf key r) ∧ ∀ r ∈ after, ¬ IsPutOf key r

theorem not_overwritten_nil (key : String) : ¬ Overwritten [] key := by
  rintro ⟨before, after, base, data, split, _⟩
  simp at split

theorem tmpKey_ne (base : String) : base ++ ".tmp" ≠ base := by
  intro same
  have lengths := congrArg String.length same
  have tmp : ".tmp".length = 4 := rfl
  rw [String.length_append, tmp] at lengths
  omega

theorem overwritten_concat {requests : List Request} {r : Request} {key : String} :
    Overwritten (requests ++ [r]) key ↔ ¬ IsPutOf key r ∧
      (Overwritten requests key ∨ ((∃ base data, r = .put base data ∧ base ++ ".tmp" = key) ∧
        ∃ r ∈ requests, IsPutOf key r)) := by
  constructor
  · rintro ⟨before, after, base, data, split, tmp, put, later⟩
    rcases List.eq_nil_or_concat after with rfl | ⟨after, last, rfl⟩
    · obtain ⟨rfl, same⟩ := List.append_inj' split rfl
      cases same
      refine ⟨?_, .inr ⟨⟨base, data, rfl, tmp⟩, put⟩⟩
      rintro ⟨_, same⟩
      cases same
      exact tmpKey_ne _ tmp
    · rw [List.concat_eq_append, ← List.cons_append, ← List.append_assoc] at split
      obtain ⟨rfl, same⟩ := List.append_inj' split rfl
      cases same
      exact ⟨later _ (by simp), .inl ⟨before, after, base, data, rfl, tmp, put, fun r' member =>
        later r' (by simp [member])⟩⟩
  · rintro ⟨other, ⟨before, after, base, data, rfl, tmp, put, later⟩ | ⟨⟨base, data, rfl, tmp⟩, put⟩⟩
    · refine ⟨before, after ++ [r], base, data, by simp, tmp, put, fun r' member => ?_⟩
      rcases List.mem_append.mp member with old | new
      · exact later r' old
      · rw [List.mem_singleton.mp new]
        exact other
    · exact ⟨requests, [], base, data, rfl, tmp, put, nofun⟩

/-! ## The calls of a client -/

section Calls

variable (repr : String → String)

/-- The store after the calls, one after another from an empty one. -/
def storeAfter (calls : List Call) : Storage :=
  calls.foldl (fun store call => (exchange repr call store).2) Storage.empty

/-- Every PUT was answered OK. -/
def PutsAnswered (calls : List Call) : Prop :=
  ∀ before call after, calls = before ++ call :: after → (∃ key, IsPutOf key call.request) →
    (exchange repr call (storeAfter repr before)).1 = .ok .done

end Calls

variable {repr : String → String}

theorem storeAfter_concat (calls : List Call) (call : Call) :
    storeAfter repr (calls ++ [call]) = (exchange repr call (storeAfter repr calls)).2 := by
  rw [storeAfter, List.foldl_append]
  rfl

theorem PutsAnswered.concat {calls : List Call} {call : Call} (answered : PutsAnswered repr (calls ++ [call])) :
    PutsAnswered repr calls ∧ ((∃ key, IsPutOf key call.request) →
      (exchange repr call (storeAfter repr calls)).1 = .ok .done) := by
  refine ⟨fun before other after split put => ?_, answered calls call [] rfl⟩
  exact answered before other (after ++ [call]) (by rw [split]; simp) put

/-! ## One call -/

theorem safePath_short {key : String} {path : BlobPath} (safe : safePath key = some path) :
    key.toList.length ≤ 258 := by
  have parts := (safePath_parts safe).1
  obtain ⟨space, bare, _⟩ := safePath_segments safe
  simp only [isSegment, Bool.and_eq_true, decide_eq_true_eq] at space bare
  have newline : path.2.toList.length ≤ (bareName path.2.toList).length + 1 := by
    unfold bareName
    split
    · rw [List.length_dropLast]
      omega
    · omega
  rw [parts, List.length_append, List.length_cons]
  omega

/-- The command of an accepted key fits its frame. -/
theorem line_sendable {r : Request} {path : BlobPath} (safe : safePath r.arg = some path) :
    Sendable r.line := by
  have short := safePath_short safe
  have op : r.op.toList.length ≤ 4 := by cases r <;> simp [Request.op]
  have space : " ".toList.length = 1 := rfl
  apply text_sendable
  simp only [String.toList_append, List.length_append, space]
  omega

theorem safe_fits {r : Request} {path : BlobPath} (safe : safePath r.arg = some path)
    (payload : ∀ data ∈ r.payload, Sendable data) : r.Fits :=
  List.forall_mem_cons.mpr ⟨line_sendable safe, payload⟩

theorem sizeText_sendable {data : Bytes} (small : Sendable data) : Sendable (encodeText (sizeText data)) := by
  have digits := Nat.toDigits_length 10 data.length 20 (by decide) (Nat.lt_trans small (by decide))
  have start : "OK ".toList.length = 3 := rfl
  apply text_sendable
  rw [sizeText, List.length_append, start]
  omega

/-- A PUT answered OK stored its data, which fits a frame. -/
theorem exchange_put {call : Call} {store : Storage} {key : String} {data : Bytes}
    (put : call.request = .put key data) (done : (exchange repr call store).1 = .ok .done) :
    Sendable data ∧ ∃ path, safePath key = some path ∧
      store.put key data = some (exchange repr call store).2 := by
  obtain ⟨fits, found, answered, _, value⟩ := exchange_ok done
  rw [put] at fits answered value
  refine ⟨fits data (by simp [Request.payload]), ?_⟩
  rw [answerValue] at value
  split at value
  · cases value
  · rename_i legal
    rw [answer, if_neg legal] at answered
    obtain ⟨after, stored, pair⟩ := Option.map_eq_some_iff.mp answered
    rw [← (Prod.mk.inj pair).1]
    rw [Bool.not_eq_true, Option.isNone_eq_false_iff] at legal
    obtain ⟨path, safe⟩ := Option.isSome_iff_exists.mp legal
    exact ⟨path, safe, stored⟩

/-- The other commands leave the store as it is. -/
theorem exchange_reads {call : Call} {store : Storage} (reads : ∀ key, ¬ IsPutOf key call.request) :
    (exchange repr call store).2 = store := by
  by_cases fits : call.request.Fits
  · rw [exchange_store fits, afterStore]
    cases kind : call.request with
    | put key data => exact absurd ⟨data, kind⟩ (reads key)
    | get key =>
        rw [answer]
        split <;> rfl
    | stat key =>
        rw [answer]
        split <;> rfl
    | list start => rfl
  · rw [exchange_unfit fits]

/-- The temporary name of an accepted key, as a key. -/
theorem tmp_path {base key : String} {path other : BlobPath} (safe : safePath base = some path)
    (safe' : safePath key = some other) : other = (path.1, path.2 ++ ".tmp") ↔ base ++ ".tmp" = key := by
  obtain ⟨parts, _, noSlash⟩ := safePath_parts safe
  have joined : base ++ ".tmp" = path.1 ++ "/" ++ (path.2 ++ ".tmp") := by
    apply String.toList_injective
    simp [parts]
  constructor
  · intro same
    rw [joined]
    apply String.toList_injective
    rw [(safePath_parts safe').1, same]
    simp
  · intro same
    rw [← same, joined] at safe'
    refine safePath_suffix ?_ safe'
    rw [String.toList_append, List.mem_append, not_or]
    exact ⟨noSlash, by decide⟩

/-- What a PUT answered OK changes: its own key, and the one of its temporary name. -/
theorem put_get {store after : Storage} {key other : String} {data : Bytes} {path : BlobPath}
    (stored : store.put key data = some after) (safe : ∃ path, safePath key = some path)
    (safe' : safePath other = some path) :
    after.get other =
      if other = key then some data else if key ++ ".tmp" = other then none else store.get other := by
  obtain ⟨path', safe⟩ := safe
  rw [Storage.get_eq safe', Storage.get_eq safe', Storage.put_lookup safe stored]
  by_cases here : other = key
  · rw [here, safe] at safe'
    cases safe'
    rw [if_pos rfl, if_pos here]
  · have apart : path ≠ path' := by
      rintro rfl
      exact here (safePath_inj safe' safe)
    rw [if_neg apart, if_neg here]
    simp only [tmp_path safe safe']

/-! ## What the directory shows -/

/-- The directory shows the abstract store, except for keys that were overwritten. -/
structure Shows (store : Storage) (requests : List Request) : Prop where
  small : ∀ key data, store.get key = some data → Sendable data
  overwritten : ∀ key path, safePath key = some path → Overwritten requests key → store.get key = none
  latest : ∀ key path, safePath key = some path → ¬ Overwritten requests key →
    store.get key = latest requests key

theorem shows_empty : Shows Storage.empty [] where
  small key data present := by
    have nothing : Storage.empty.get key = none := by
      rw [Storage.get]
      cases safePath key <;> rfl
    rw [nothing] at present
    cases present
  overwritten key _ _ taken := absurd taken (not_overwritten_nil key)
  latest key path safe _ := by
    rw [Storage.get_eq safe]
    rfl

theorem Shows.put {store after : Storage} {requests : List Request} {key : String} {data : Bytes}
    (shows : Shows store requests) (small : Sendable data) (safe : ∃ path, safePath key = some path)
    (stored : store.put key data = some after) : Shows after (requests ++ [.put key data]) := by
  have isPut : ∀ other, IsPutOf other (.put key data) ↔ other = key := by
    refine fun other => ⟨?_, ?_⟩
    · rintro ⟨_, same⟩
      cases same
      rfl
    · rintro rfl
      exact ⟨data, rfl⟩
  have taken : ∀ other, Overwritten (requests ++ [.put key data]) other ↔ other ≠ key ∧
      (Overwritten requests other ∨ (key ++ ".tmp" = other ∧ ∃ r ∈ requests, IsPutOf other r)) := by
    intro other
    simp [overwritten_concat, isPut]
  constructor
  case small =>
    intro other found present
    obtain ⟨path, safe'⟩ : ∃ path, safePath other = some path := by
      rw [Storage.get, Option.bind_eq_some_iff] at present
      obtain ⟨path, safe', _⟩ := present
      exact ⟨path, safe'⟩
    rw [put_get stored safe safe'] at present
    split at present
    · cases present
      exact small
    · split at present
      · cases present
      · exact shows.small other found present
  case overwritten =>
    intro other path safe' overwritten
    obtain ⟨apart, earlier⟩ := (taken other).mp overwritten
    rw [put_get stored safe safe', if_neg apart]
    split
    · rfl
    · rename_i noTmp
      rcases earlier with before | ⟨tmp, _⟩
      · exact shows.overwritten other path safe' before
      · exact absurd tmp noTmp
  case latest =>
    intro other path safe' visible
    rw [put_get stored safe safe', latest_concat, KeyValue.apply]
    by_cases here : other = key
    · rw [if_pos here, here, Function.update_self]
    · rw [if_neg here, Function.update_of_ne here]
      have before : ¬ Overwritten requests other :=
        fun before => visible ((taken other).mpr ⟨here, .inl before⟩)
      split
      · rename_i tmp
        -- nothing was there to lose
        have unput : ¬ ∃ r ∈ requests, IsPutOf other r := fun put =>
          visible ((taken other).mpr ⟨here, .inr ⟨tmp, put⟩⟩)
        rw [← latest_some, ← Option.isSome_iff_exists, Bool.not_eq_true, Option.isSome_eq_false_iff,
          Option.isNone_iff_eq_none] at unput
        exact unput.symm
      · exact shows.latest other path safe' before

theorem Shows.reads {store : Storage} {requests : List Request} {r : Request} (shows : Shows store requests)
    (reads : ∀ key, ¬ IsPutOf key r) : Shows store (requests ++ [r]) := by
  have same : ApproachB.latest (requests ++ [r]) = ApproachB.latest requests := by
    rw [latest_concat]
    cases r with
    | put key data => exact absurd ⟨data, rfl⟩ (reads key)
    | get key | stat key | list key => rfl
  have taken : ∀ key, Overwritten (requests ++ [r]) key ↔ Overwritten requests key := by
    intro key
    rw [overwritten_concat]
    refine ⟨?_, fun before => ⟨reads key, .inl before⟩⟩
    rintro ⟨_, before | ⟨⟨base, data, rfl, _⟩, _⟩⟩
    · exact before
    · exact absurd ⟨data, rfl⟩ (reads base)
  refine ⟨shows.small, fun key path safe before => ?_, fun key path safe visible => ?_⟩
  · exact shows.overwritten key path safe ((taken key).mp before)
  · rw [same]
    exact shows.latest key path safe fun before => visible ((taken key).mpr before)

/-- After any calls whose PUTs were answered OK. -/
theorem shows_after {calls : List Call} (answered : PutsAnswered repr calls) :
    Shows (storeAfter repr calls) (calls.map Call.request) := by
  induction calls using List.reverseRecOn with
  | nil => exact shows_empty
  | append_singleton calls call ih =>
      obtain ⟨earlier, last⟩ := answered.concat
      rw [storeAfter_concat, List.map_append, List.map_cons, List.map_nil]
      by_cases put : ∃ key, IsPutOf key call.request
      · obtain ⟨small, path, safe, stored⟩ := exchange_put put.choose_spec.choose_spec (last put)
        rw [put.choose_spec.choose_spec]
        exact (ih earlier).put small ⟨path, safe⟩ stored
      · rw [not_exists] at put
        rw [exchange_reads put]
        exact (ih earlier).reads put

/-! ## GET and STAT -/

/-- What GET and STAT of `key` return, at any pace, is what the abstract store holds. -/
def AnswersLatest (repr : String → String) (calls : List Call) (key : String) : Prop :=
  ∀ brokerPace clientPace,
    (exchange repr ⟨.get key, brokerPace, clientPace⟩ (storeAfter repr calls)).1 =
      .ok (.blob (latest (calls.map Call.request) key)) ∧
    (exchange repr ⟨.stat key, brokerPace, clientPace⟩ (storeAfter repr calls)).1 =
      .ok (.size ((latest (calls.map Call.request) key).map fun data => (data.length : Int)))

theorem exchange_missing {call : Call} {store : Storage} (fits : call.request.Fits)
    (answered : answer repr store call.request = some (store, [encodeText "MISSING".toList])) :
    exchange repr call store = (answerValue repr store call.request, store) :=
  exchange_answer fits answered (List.forall_mem_singleton.mpr (text_sendable (by simp)))

theorem exchange_get {store : Storage} {key : String} {path : BlobPath} (safe : safePath key = some path)
    (small : ∀ data, store.get key = some data → Sendable data) (brokerPace clientPace : List Nat) :
    (exchange repr ⟨.get key, brokerPace, clientPace⟩ store).1 = .ok (.blob (store.get key)) := by
  let call : Call := ⟨.get key, brokerPace, clientPace⟩
  have fits : call.request.Fits := safe_fits safe (List.forall_mem_nil _)
  cases found : store.get key with
  | none =>
      have answered : answer repr store call.request = some (store, [encodeText "MISSING".toList]) := by
        rw [answer, found]
      rw [exchange_missing fits answered, answerValue, found]
  | some data =>
      have answered : answer repr store call.request = some (store, [encodeText "OK".toList, data]) := by
        rw [answer, found]
      rw [exchange_answer fits answered (List.forall_mem_cons.mpr ⟨text_sendable (by simp), ?_⟩), answerValue,
        found]
      exact List.forall_mem_singleton.mpr (small data found)

theorem exchange_stat {store : Storage} {key : String} {path : BlobPath} (safe : safePath key = some path)
    (small : ∀ data, store.get key = some data → Sendable data) (brokerPace clientPace : List Nat) :
    (exchange repr ⟨.stat key, brokerPace, clientPace⟩ store).1 =
      .ok (.size ((store.get key).map fun data => (data.length : Int))) := by
  let call : Call := ⟨.stat key, brokerPace, clientPace⟩
  have fits : call.request.Fits := safe_fits safe (List.forall_mem_nil _)
  cases found : store.get key with
  | none =>
      have answered : answer repr store call.request = some (store, [encodeText "MISSING".toList]) := by
        rw [answer, found]
      rw [exchange_missing fits answered, answerValue, found]
  | some data =>
      have answered : answer repr store call.request = some (store, [encodeText (sizeText data)]) := by
        rw [answer, found]
      have small_reply := List.forall_mem_singleton.mpr (sizeText_sendable (small data found))
      rw [exchange_answer fits answered small_reply, answerValue, found]

theorem not_answersLatest {calls : List Call} (answered : PutsAnswered repr calls) {key : String}
    {path : BlobPath} (safe : safePath key = some path) (taken : Overwritten (calls.map Call.request) key) :
    ¬ AnswersLatest repr calls key := by
  intro answers
  have shows := shows_after answered
  have get := (answers [] []).1
  rw [exchange_get safe (shows.small key), shows.overwritten key path safe taken] at get
  obtain ⟨before, after, base, data, split, _, ⟨r, member, put⟩, _⟩ := taken
  have inside : r ∈ calls.map Call.request := by
    rw [split]
    exact List.mem_append_left _ member
  obtain ⟨found, present⟩ := latest_some.mpr ⟨r, inside, put⟩
  rw [present] at get
  cases get

/-- **GET and STAT answer from the latest PUT** of their key if and only if no PUT after it
    took the key for its temporary name. -/
theorem answersLatest_iff {calls : List Call} (answered : PutsAnswered repr calls) {key : String}
    {path : BlobPath} (safe : safePath key = some path) :
    AnswersLatest repr calls key ↔ ¬ Overwritten (calls.map Call.request) key := by
  refine ⟨fun answers taken => not_answersLatest answered safe taken answers, ?_⟩
  intro visible brokerPace clientPace
  have shows := shows_after answered
  rw [exchange_get safe (shows.small key), exchange_stat safe (shows.small key),
    shows.latest key path safe visible]
  exact ⟨rfl, rfl⟩

/-! ## Which PUTs are answered -/

/-- A PUT that the broker can carry out. -/
def Storable (key : String) (data : Bytes) : Prop :=
  (∃ path, safePath key = some path ∧ path.2 ≠ ".") ∧ Sendable data

theorem exchange_storable {call : Call} {store : Storage} {key : String} {data : Bytes}
    (put : call.request = .put key data) (storable : Storable key data) :
    (exchange repr call store).1 = .ok .done := by
  obtain ⟨⟨path, safe, named⟩, small⟩ := storable
  have fits : call.request.Fits := by
    rw [put]
    exact safe_fits safe (List.forall_mem_singleton.mpr small)
  have legal : ¬ (safePath key).isNone = true := by
    rw [safe, Option.isNone_some]
    exact Bool.false_ne_true
  obtain ⟨after, stored⟩ := store.put_some data safe named
  have answered : answer repr store call.request = some (after, [encodeText "OK".toList]) := by
    rw [put, answer, if_neg legal, stored]
    rfl
  have small_reply : ∀ reply ∈ [encodeText "OK".toList], Sendable reply :=
    List.forall_mem_singleton.mpr (text_sendable (by simp))
  rw [exchange_answer fits answered small_reply, put, answerValue, if_neg legal]

theorem putsAnswered {calls : List Call}
    (storable : ∀ call ∈ calls, ∀ key data, call.request = .put key data → Storable key data) :
    PutsAnswered repr calls := by
  rintro before call after rfl ⟨key, data, put⟩
  exact exchange_storable put (storable call (by simp) key data put)

/-- A key that is no temporary name answers from its latest PUT. -/
theorem answersLatest_two :
    AnswersLatest id [⟨.put "n/a" [1], [], []⟩, ⟨.put "n/b" [2], [1], []⟩, ⟨.get "n/b", [], [3]⟩] "n/a" := by
  have small : ∀ b : UInt8, Sendable [b] := fun b => show 1 < 2 ^ 64 by decide
  refine (answersLatest_iff (putsAnswered fun call member key data put => ?_)
    (show safePath "n/a" = some ("n", "a") from rfl)).mpr ?_
  · simp only [List.mem_cons, List.not_mem_nil, or_false] at member
    rcases member with rfl | rfl | rfl
    · cases put
      exact ⟨⟨("n", "a"), rfl, by decide⟩, small _⟩
    · cases put
      exact ⟨⟨("n", "b"), rfl, by decide⟩, small _⟩
    · cases put
  · rintro ⟨before, after, base, data, _, tmp, _⟩
    have suffix : ".tmp".toList.isSuffixOf "n/a".toList = true := by
      rw [List.isSuffixOf_iff_suffix, ← tmp, String.toList_append]
      exact List.suffix_append _ _
    exact absurd suffix (by decide)

/-- "n/a.tmp" is a key, and a PUT of "n/a" removes its blob. -/
theorem put_removes_blob :
    ¬ ∀ (repr : String → String) (calls : List Call) (key : String) (path : BlobPath),
      PutsAnswered repr calls → safePath key = some path → AnswersLatest repr calls key := by
  intro claim
  let calls : List Call := [⟨.put "n/a.tmp" [1], [], []⟩, ⟨.put "n/a" [2], [], []⟩]
  have safe : safePath "n/a.tmp" = some ("n", "a.tmp") := rfl
  have small : ∀ b : UInt8, Sendable [b] := fun b => show 1 < 2 ^ 64 by decide
  have answered : PutsAnswered id calls := by
    refine putsAnswered fun call member key data put => ?_
    simp only [calls, List.mem_cons, List.not_mem_nil, or_false] at member
    rcases member with rfl | rfl
    · cases put
      exact ⟨⟨_, safe, by decide⟩, small _⟩
    · cases put
      exact ⟨⟨("n", "a"), rfl, by decide⟩, small _⟩
  have taken : Overwritten (calls.map Call.request) "n/a.tmp" :=
    ⟨[.put "n/a.tmp" [1]], [], "n/a", [2], rfl, rfl, ⟨_, List.mem_cons_self, [1], rfl⟩, nofun⟩
  exact not_answersLatest answered safe taken (claim id calls _ _ answered safe)

end SecureTransfer.ApproachB
