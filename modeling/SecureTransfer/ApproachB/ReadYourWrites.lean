import SecureTransfer.ApproachB.ClientSession
import SecureTransfer.ApproachB.KeyValue

/-! # What a client reads back

A `get` of a key that the client has put. A failed attempt may leave a whole PUT behind on
a connection that was given up, which the broker may serve after later calls have returned;
nothing orders the two. So a client reads its latest value, or one that it lost track of.
-/

namespace SecureTransfer.ApproachB

open Library ClientSession

variable {repr : String → String} {key : String}

/-- The latest PUT of `key` called in `log` is one of `value` that returned, after `before`. -/
def LastPut (key : String) (log before : List Ended) (value : Bytes) : Prop :=
  ∃ put between, log = before ++ put :: between ∧ put.request = .put key value ∧
    put.outcome = .ok .done ∧ ∀ ended ∈ between, ¬ IsPutOf key ended.request

/-- `value` was put in a call that lost an attempt. -/
def LostIn (key : String) (log : List Ended) (value : Bytes) : Prop :=
  ∃ ended ∈ log, ended.request = .put key value ∧ ended.lost = true

/-- Each get of a key that returns has the value of the latest PUT that was called. -/
def ReadsLatest (log : List Ended) : Prop :=
  ∀ key entries get after before value found, log = entries ++ get :: after →
    LastPut key entries before value → get.request = .get key → get.outcome = .ok (.blob found) →
      found = some value

/-- Or one of an earlier call that lost an attempt. -/
def ReadsWritten (key : String) (log : List Ended) : Prop :=
  ∀ entries get after before value found, log = entries ++ get :: after →
    LastPut key entries before value → get.request = .get key → get.outcome = .ok (.blob found) →
      ∃ written, found = some written ∧ (written = value ∨ LostIn key before written)

/-- The temporary name of `key` is not taken for another one. -/
def Calm (key : String) (r : Request) : Prop := ∀ base data, r = .put base data → base ++ ".tmp" ≠ key

/-- No other client, and no PUT of the key that `key` is the temporary name of. -/
def OwnAction (key : String) : ClientAction → Prop
  | .others _ => False
  | .begin r => Calm key r
  | _ => True

def OwnStep (repr : String → String) (key : String) (s t : ClientSession) : Prop :=
  ∃ action, OwnAction key action ∧ step repr action s = some t

/-! ## The log -/

theorem lastPut_concat {log before : List Ended} {ended : Ended} {value : Bytes} :
    LastPut key (log ++ [ended]) before value ↔
      (LastPut key log before value ∧ ¬ IsPutOf key ended.request) ∨
        (before = log ∧ ended.request = .put key value ∧ ended.outcome = .ok .done) := by
  constructor
  · rintro ⟨put, between, split, put_of, done, later⟩
    rcases List.eq_nil_or_concat between with rfl | ⟨between, last, rfl⟩
    · obtain ⟨rfl, same⟩ := List.append_inj' split rfl
      cases same
      exact .inr ⟨rfl, put_of, done⟩
    · rw [List.concat_eq_append, ← List.cons_append, ← List.append_assoc] at split
      obtain ⟨rfl, same⟩ := List.append_inj' split rfl
      cases same
      exact .inl ⟨⟨put, between, rfl, put_of, done, fun other member => later other (by simp [member])⟩,
        later _ (by simp)⟩
  · rintro (⟨⟨put, between, rfl, put_of, done, later⟩, other⟩ | ⟨rfl, put_of, done⟩)
    · refine ⟨put, between ++ [ended], by simp, put_of, done, fun ended' member => ?_⟩
      rcases List.mem_append.mp member with old | new
      · exact later ended' old
      · rw [List.mem_singleton.mp new]
        exact other
    · exact ⟨ended, [], rfl, put_of, done, nofun⟩

/-- What was lost of `key` was lost by its latest PUT or before it. -/
theorem LastPut.lost {log before : List Ended} {value lost : Bytes} (last : LastPut key log before value)
    (missing : LostIn key log lost) : lost = value ∨ LostIn key before lost := by
  obtain ⟨put, between, rfl, put_of, _, later⟩ := last
  obtain ⟨ended, member, of, flagged⟩ := missing
  rcases List.mem_append.mp member with old | new
  · exact .inr ⟨ended, old, of, flagged⟩
  · rcases List.mem_cons.mp new with rfl | new
    · rw [put_of] at of
      cases of
      exact .inl rfl
    · exact absurd ⟨lost, of⟩ (later ended new)

/-! ## One command -/

/-- A calm command changes `key` only if it is a PUT of it. -/
theorem afterStore_get (repr : String → String) (store : Storage) {r : Request} (calm : Calm key r) :
    (afterStore repr store r).get key = store.get key ∨
      ∃ value, r = .put key value ∧ (afterStore repr store r).get key = some value := by
  cases r with
  | put base data =>
      rw [afterStore, answer]
      split
      · exact .inl rfl
      · rename_i legal
        cases stored : store.put base data with
        | none => exact .inl rfl
        | some after =>
            rw [Bool.not_eq_true, Option.isNone_eq_false_iff, Option.isSome_iff_exists] at legal
            rw [Option.map_some, Option.elim_some]
            cases safe : safePath key with
            | none => exact .inl (by rw [Storage.get, Storage.get, safe]; rfl)
            | some path =>
                rw [put_get stored legal safe, if_neg (calm base data rfl)]
                by_cases same : key = base
                · rw [if_pos same, same]
                  exact .inr ⟨data, rfl, rfl⟩
                · rw [if_neg same]
                  exact .inl rfl
  | get other =>
      rw [afterStore, answer]
      split <;> exact .inl rfl
  | stat other =>
      rw [afterStore, answer]
      split <;> exact .inl rfl
  | list start => exact .inl rfl

theorem afterStore_put {store after : Storage} {value : Bytes} {found : List Bytes}
    (answered : answer repr store (.put key value) = some (after, found))
    (done : answerValue repr store (.put key value) = .ok .done) : after.get key = some value := by
  rw [answerValue] at done
  split at done
  · cases done
  · rename_i legal
    rw [answer, if_neg legal] at answered
    obtain ⟨stored, put, same⟩ := Option.map_eq_some_iff.mp answered
    cases same
    rw [Bool.not_eq_true, Option.isNone_eq_false_iff, Option.isSome_iff_exists] at legal
    obtain ⟨path, safe⟩ := legal
    rw [put_get put ⟨path, safe⟩ safe, if_pos rfl]

/-! ## What holds throughout -/

/-- A call of the session lost an attempt to put `value`. -/
def ClientSession.Lost (s : ClientSession) (key : String) (value : Bytes) : Prop :=
  LostIn key s.log value ∨ ∃ call, s.call = some call ∧ call.request = .put key value ∧ call.lost = true

/-- What the store holds for `key` is `value` or was lost in `log`. -/
def Shown (key : String) (log : List Ended) (value : Bytes) (store : Storage) : Prop :=
  ∃ written, store.get key = some written ∧ (written = value ∨ LostIn key log written)

/-- A connection holds at most a whole command; if that is a PUT of `key`, it was lost. -/
def ClientSession.Holds (s : ClientSession) (key : String) (link : Link) : Prop :=
  ∃ r, r.Fits ∧ Calm key r ∧ link.inbox <+: r.bytes ∧
    ∀ value, r = .put key value → link.inbox = r.bytes → s.Lost key value

structure ClientSession.Tracked (repr : String → String) (key : String) (s : ClientSession) : Prop where
  kept : s.Kept repr
  calm : ∀ call, s.call = some call → Calm key call.request
  abandoned : ∀ link ∈ s.abandoned, s.Holds key link
  settled : ∀ before value, LastPut key s.log before value →
    (∀ call, s.call = some call → ¬ IsPutOf key call.request) → Shown key before value s.store
  served : ∀ call value turn after found, s.call = some call → call.request = .put key value →
    call.turns = [turn] → answer repr turn.store call.request = some (after, found) →
      answerValue repr turn.store call.request = .ok .done → Shown key s.log value s.store
  reading : ∀ call turn before value, s.call = some call → call.request = .get key → call.turns = [turn] →
    LastPut key s.log before value → Shown key before value turn.store
  read : ReadsWritten key s.log

namespace ClientSession

variable {s t : ClientSession} {call : Ongoing}

theorem tracked_start (store : Storage) : (start store).Tracked repr key where
  kept := kept_start store
  calm := nofun
  abandoned := nofun
  settled before value last _ := by
    obtain ⟨put, between, split, _⟩ := last
    exact absurd split (by simp [start])
  served := nofun
  reading := nofun
  read entries get after before value found split := absurd split (by simp [start])

/-- A step that only moves bytes of the current connection. -/
theorem Tracked.moves {link : Option Link} {rest : Option Bytes} (tracked : s.Tracked repr key)
    (ongoing : s.call = some call) (moved : t = { s with link, call := some { call with rest } })
    (kept : t.Kept repr) : t.Tracked repr key := by
  subst moved
  refine ⟨kept, ?_, fun other member => ?_, fun before value last idle => ?_, ?_, ?_, tracked.read⟩
  · rintro _ ⟨⟩
    exact tracked.calm call ongoing
  · obtain ⟨r, fits, calm, start, lost⟩ := tracked.abandoned other member
    refine ⟨r, fits, calm, start, fun value put whole => ?_⟩
    rcases lost value put whole with old | ⟨call', ongoing', of, flagged⟩
    · exact .inl old
    · rw [ongoing] at ongoing'
      cases ongoing'
      exact .inr ⟨_, rfl, of, flagged⟩
  · refine tracked.settled before value last fun call' ongoing' => ?_
    rw [ongoing] at ongoing'
    cases ongoing'
    intro put
    have other := idle _ rfl
    exact other put
  · rintro _ value turn after found ⟨⟩
    exact tracked.served call value turn after found ongoing
  · rintro _ turn before value ⟨⟩
    exact tracked.reading call turn before value ongoing

theorem Tracked.begin {r : Request} (tracked : s.Tracked repr key) (calm : Calm key r)
    (moved : step repr (.begin r) s = some t) : t.Tracked repr key := by
  have kept := tracked.kept.begin moved
  rw [step] at moved
  split at moved
  · rename_i free
    have idle := Option.isNone_iff_eq_none.mp free.1
    have none_yet : ∀ call, s.call ≠ some call := by
      intro call ongoing
      rw [idle] at ongoing
      cases ongoing
    cases moved
    refine ⟨kept, ?_, fun other member => ?_, fun before value last _ => ?_, ?_, ?_, tracked.read⟩
    · rintro _ ⟨⟩
      exact calm
    · obtain ⟨r', fits, calm', start, lost⟩ := tracked.abandoned other member
      refine ⟨r', fits, calm', start, fun value put whole => .inl ?_⟩
      rcases lost value put whole with ended | ⟨call, ongoing, _⟩
      · exact ended
      · exact (none_yet call ongoing).elim
    · exact tracked.settled before value last fun call ongoing => absurd ongoing (none_yet call)
    · rintro _ value turn after found ⟨⟩ _ ⟨⟩
    · rintro _ turn before value ⟨⟩ _ ⟨⟩
  · cases moved

/-- What is in the log and the call is lost, whatever is done to them but for the flag. -/
theorem Holds.mono {link : Link} (holds : s.Holds key link)
    (lost : ∀ value, s.Lost key value → t.Lost key value) :
    t.Holds key link := by
  obtain ⟨r, fits, calm, start, missing⟩ := holds
  exact ⟨r, fits, calm, start, fun value put whole => lost value (missing value put whole)⟩

theorem Tracked.serve {pace : List Nat} (tracked : s.Tracked repr key)
    (moved : step repr (.serve pace) s = some t) : t.Tracked repr key := by
  have kept := tracked.kept.serve moved
  obtain ⟨call, link, turn, store, next, ongoing, _, _, took, _, rfl⟩ := tracked.kept.serve_cases moved
  have calm := tracked.calm call ongoing
  have only : ∀ {call' : Ongoing}, s.call = some call' → call' = call := by
    intro call' ongoing'
    rw [ongoing] at ongoing'
    exact (Option.some.inj ongoing').symm
  refine ⟨kept, ?_, fun other member => ?_, fun before value last idle => ?_, ?_, ?_, tracked.read⟩
  · rintro _ ⟨⟩
    exact calm
  · refine (tracked.abandoned other member).mono fun value lost => ?_
    rcases lost with old | ⟨call', ongoing', of, flagged⟩
    · exact .inl old
    · rw [only ongoing'] at of flagged
      exact .inr ⟨_, rfl, of, flagged⟩
  · have unput := idle _ rfl
    obtain ⟨written, shown, from_log⟩ := tracked.settled before value last fun call' ongoing' => by
      rw [only ongoing']
      exact unput
    refine ⟨written, ?_, from_log⟩
    simp only
    rcases afterStore_get repr s.store calm with same | ⟨data, put, _⟩
    · rw [took.stored, same, shown]
    · exact absurd ⟨data, put⟩ unput
  · rintro _ value turn' after found ⟨⟩ put ⟨⟩ answered done
    simp only at put answered done
    rw [took.found, put] at answered done
    refine ⟨value, ?_, .inl rfl⟩
    have same : store = after := by rw [took.stored, afterStore, put, answered, Option.elim_some]
    rw [same]
    exact afterStore_put answered done
  · rintro _ turn' before value ⟨⟩ asked ⟨⟩ last
    rw [took.found]
    refine tracked.settled before value last fun call' ongoing' => ?_
    rw [only ongoing']
    rintro ⟨data, put⟩
    cases asked.symm.trans put

/-- A lost command that is served shows a value that was lost. -/
theorem Tracked.serveAbandoned {i : Nat} {pace : List Nat} (tracked : s.Tracked repr key)
    (moved : step repr (.serveAbandoned i pace) s = some t) : t.Tracked repr key := by
  have kept := tracked.kept.serveAbandoned moved
  rw [step] at moved
  split at moved
  · cases moved
  · rename_i link here
    obtain ⟨⟨turn, store, next⟩, turned, rfl⟩ := Option.map_eq_some_iff.mp moved
    obtain ⟨r, fits, calm, start, lost⟩ := tracked.abandoned link (List.mem_of_getElem? here)
    have took := Link.took fits start turned
    refine ⟨kept, tracked.calm, fun other member => ?_, fun before value last idle => ?_, ?_, tracked.reading,
      tracked.read⟩
    · rcases List.mem_or_eq_of_mem_set member with old | rfl
      · exact tracked.abandoned other old
      · refine ⟨r, fits, calm, by rw [took.inbox]; exact List.nil_prefix, fun value _ whole => ?_⟩
        rw [took.inbox] at whole
        exact absurd whole.symm (bytes_ne_nil r)
    · simp only [took.stored]
      rcases afterStore_get repr s.store calm with same | ⟨data, put, shown⟩
      · obtain ⟨written, shown, from_log⟩ := tracked.settled before value last idle
        exact ⟨written, same.trans shown, from_log⟩
      · refine ⟨data, shown, ?_⟩
        rcases lost data put took.arrived with missing | ⟨call, ongoing, of, _⟩
        · exact last.lost missing
        · exact absurd ⟨data, of⟩ (idle call ongoing)
    · intro call value turn' after found ongoing put turns answered done
      simp only [took.stored]
      rcases afterStore_get repr s.store calm with same | ⟨data, put', shown⟩
      · obtain ⟨written, shown, from_log⟩ :=
          tracked.served call value turn' after found ongoing put turns answered done
        exact ⟨written, same.trans shown, from_log⟩
      · refine ⟨data, shown, ?_⟩
        rcases lost data put' took.arrived with missing | ⟨call', ongoing', of, _⟩
        · exact .inr missing
        · rw [ongoing] at ongoing'
          cases ongoing'
          rw [put] at of
          cases of
          exact .inl rfl

theorem Tracked.finish {link : Option Link} {outcome : Except ClientError Value} (tracked : s.Tracked repr key)
    (ongoing : s.call = some call) (own : OwnReply repr ⟨call.request, outcome, call.turns, call.lost⟩)
    (moved : t = finish { s with link } call outcome) (kept : t.Kept repr) : t.Tracked repr key := by
  subst moved
  obtain ⟨turn, after, found, turns, _, answered, _, value_of⟩ := own
  simp only at turns answered value_of
  refine ⟨kept, nofun, fun other member => ?_, fun before value last _ => ?_, nofun, nofun, ?_⟩
  · refine (tracked.abandoned other member).mono fun value lost => .inl ?_
    rcases lost with ⟨ended, old, of, flagged⟩ | ⟨call', ongoing', of, flagged⟩
    · exact ⟨ended, List.mem_append_left _ old, of, flagged⟩
    · rw [ongoing] at ongoing'
      cases ongoing'
      exact ⟨_, List.mem_append_right _ (List.mem_singleton_self _), of, flagged⟩
  · rcases lastPut_concat.mp last with ⟨earlier, unput⟩ | ⟨rfl, put, done⟩
    · refine tracked.settled before value earlier fun call' ongoing' => ?_
      rw [ongoing] at ongoing'
      cases ongoing'
      exact unput
    · exact tracked.served call value turn after found ongoing put turns answered (value_of.symm.trans done)
  · intro entries get after' before value shown split last asked returned
    rcases List.eq_nil_or_concat after' with rfl | ⟨later, newest, rfl⟩
    · obtain ⟨rfl, same⟩ := List.append_inj' split rfl
      cases same
      obtain ⟨written, present, from_log⟩ :=
        tracked.reading call turn before value ongoing asked turns last
      simp only at asked returned
      rw [value_of, asked, answerValue, present] at returned
      cases returned
      exact ⟨written, rfl, from_log⟩
    · rw [List.concat_eq_append, ← List.cons_append, ← List.append_assoc] at split
      exact tracked.read entries get later before value shown (List.append_inj' split rfl).1 last asked returned

/-- What an attempt leaves behind is at most its whole command, and then it is lost. -/
theorem Tracked.dropped (tracked : s.Tracked repr key) (ongoing : s.call = some call)
    (lost : ∀ value, s.Lost key value → t.Lost key value)
    (missing : ∀ value, call.request = .put key value → call.rest = some [] → t.Lost key value) :
    ∀ link ∈ s.abandoned ++ s.link.toList, t.Holds key link := by
  intro link member
  rcases List.mem_append.mp member with old | current
  · exact (tracked.abandoned link old).mono lost
  · have here : s.link = some link := Option.mem_toList.mp current
    have nothing : link.inbox = [] → t.Holds key link := by
      intro empty
      refine ⟨call.request, tracked.kept.fits call ongoing, tracked.calm call ongoing, ?_,
        fun value _ whole => ?_⟩
      · rw [empty]
        exact List.nil_prefix
      · rw [empty] at whole
        exact absurd whole.symm (bytes_ne_nil _)
    cases sending : call.rest with
    | none =>
        have resting : s.Resting := by
          intro call' ongoing'
          rw [ongoing] at ongoing'
          cases ongoing'
          exact sending
        exact nothing (by rw [tracked.kept.resting resting link here]; rfl)
    | some rest =>
        obtain ⟨_, same, flight⟩ := tracked.kept.flight call rest ongoing sending
        rw [here] at same
        cases same
        rcases flight.inbox with sent | empty
        · refine ⟨call.request, tracked.kept.fits call ongoing, tracked.calm call ongoing, ⟨rest, sent⟩,
            fun value put whole => missing value put ?_⟩
          have all : link.inbox ++ rest = link.inbox ++ [] := by rw [sent, List.append_nil, whole]
          rw [sending, List.append_cancel_left all]
        · exact nothing empty

theorem Tracked.retry (tracked : s.Tracked repr key) (ongoing : s.call = some call) :
    (s.retry call).Tracked repr key := by
  have kept := tracked.kept.retry ongoing
  have only : ∀ {call' : Ongoing}, s.call = some call' → call' = call := by
    intro call' ongoing'
    rw [ongoing] at ongoing'
    exact (Option.some.inj ongoing').symm
  unfold ClientSession.retry at kept ⊢
  simp only at kept ⊢
  split
  · rename_i more
    rw [if_pos more] at kept
    refine ⟨kept, ?_, tracked.dropped ongoing (fun value lost => ?_) (fun value put sent => ?_),
      fun before value last idle => ?_, ?_, ?_, tracked.read⟩
    · rintro _ ⟨⟩
      exact tracked.calm call ongoing
    · rcases lost with old | ⟨call', ongoing', of, flagged⟩
      · exact .inl old
      · rw [only ongoing'] at of flagged
        exact .inr ⟨_, rfl, of, by simp [flagged]⟩
    · exact .inr ⟨_, rfl, put, by simp [sent]⟩
    · have unput := idle _ rfl
      refine tracked.settled before value last fun call' ongoing' => ?_
      rw [only ongoing']
      exact unput
    · rintro _ value turn after found ⟨⟩ _ ⟨⟩
    · rintro _ turn before value ⟨⟩ _ ⟨⟩
  · rename_i last_attempt
    rw [if_neg last_attempt] at kept
    refine ⟨kept, nofun, tracked.dropped ongoing (fun value lost => .inl ?_) (fun value put sent => .inl ?_),
      fun before value last _ => ?_, nofun, nofun, ?_⟩
    · rcases lost with ⟨ended, old, of, flagged⟩ | ⟨call', ongoing', of, flagged⟩
      · exact ⟨ended, List.mem_append_left _ old, of, flagged⟩
      · rw [only ongoing'] at of flagged
        exact ⟨_, List.mem_append_right _ (List.mem_singleton_self _), of, by simp [flagged]⟩
    · exact ⟨_, List.mem_append_right _ (List.mem_singleton_self _), put, by simp [sent]⟩
    · rcases lastPut_concat.mp last with ⟨earlier, unput⟩ | ⟨_, _, ⟨⟩⟩
      refine tracked.settled before value earlier fun call' ongoing' => ?_
      rw [only ongoing']
      exact unput
    · intro entries get after before value shown split last asked returned
      rcases List.eq_nil_or_concat after with rfl | ⟨later, newest, rfl⟩
      · obtain ⟨_, same⟩ := List.append_inj' split rfl
        cases same
        cases returned
      · rw [List.concat_eq_append, ← List.cons_append, ← List.append_assoc] at split
        exact tracked.read entries get later before value shown (List.append_inj' split rfl).1 last asked returned

theorem Tracked.step {action : ClientAction} (tracked : s.Tracked repr key) (own : OwnAction key action)
    (moved : step repr action s = some t) : t.Tracked repr key := by
  cases action with
  | begin r => exact tracked.begin own moved
  | connect =>
      have kept := tracked.kept.connect moved
      rw [ClientSession.step] at moved
      split at moved
      · rename_i ongoing
        cases moved
        exact tracked.moves ongoing rfl kept
      · cases moved
  | send count =>
      have kept := tracked.kept.send moved
      rw [ClientSession.step] at moved
      split at moved
      · rename_i ongoing _
        cases moved
        exact tracked.moves ongoing rfl kept
      · cases moved
  | serve pace => exact tracked.serve moved
  | serveAbandoned i pace => exact tracked.serveAbandoned moved
  | receive arrived pace =>
      have kept := tracked.kept.receive moved
      obtain ⟨call, ongoing, rfl | ⟨outcome, reply, rfl⟩⟩ := tracked.kept.receive_cases moved
      · exact tracked.retry ongoing
      · exact tracked.finish ongoing reply rfl kept
  | fail =>
      obtain ⟨call, ongoing, rfl⟩ := Option.map_eq_some_iff.mp moved
      exact tracked.retry ongoing
  | others store => exact own.elim

theorem tracked_preserved : Preserves (OwnStep repr key) (Tracked repr key) := by
  rintro s t tracked ⟨action, own, moved⟩
  exact tracked.step own moved

end ClientSession

/-- **A get after a put that returned** has the value of that put, or one of an earlier put
    that gave up an attempt after its whole command was sent. -/
theorem reads_written (repr : String → String) (key : String) (store : Storage) (s : ClientSession)
    (run : Relation.ReflTransGen (OwnStep repr key) (start store) s) : ReadsWritten key s.log :=
  (tracked_preserved.run (tracked_start store) run).read

/-! ## A PUT that is served late -/

theorem answer_put (repr : String → String) (store : Storage) (data : Bytes) {path : BlobPath}
    (safe : safePath key = some path) (named : path.2 ≠ ".") :
    ∃ after, answer repr store (.put key data) = some (after, [encodeText "OK".toList]) ∧
      after.get key = some data := by
  obtain ⟨after, stored⟩ := store.put_some data safe named
  have legal : ¬ (safePath key).isNone = true := by
    rw [safe, Option.isNone_some]
    exact Bool.false_ne_true
  refine ⟨after, by rw [answer, if_neg legal, stored]; rfl, ?_⟩
  rw [put_get stored ⟨path, safe⟩ safe, if_pos rfl]

/-- The first PUT loses an attempt, which is served after the second one has returned. -/
theorem stale_run : ∃ s first second get, Relation.ReflTransGen (OwnStep id "n/a") (start Storage.empty) s ∧
    s.log = [first, second] ++ get :: [] ∧ LastPut "n/a" [first, second] [first] [2] ∧
      get.request = .get "n/a" ∧ get.outcome = .ok (.blob (some [1])) := by
  have safe : safePath "n/a" = some ("n", "a") := rfl
  have byte : ∀ b : UInt8, ∀ data ∈ [[b]], Sendable data := fun b =>
    List.forall_mem_singleton.mpr (show 1 < 2 ^ 64 by decide)
  have puts : ∀ b : UInt8, (Request.put "n/a" [b]).Fits := fun b => safe_fits safe (byte b)
  have gets : (Request.get "n/a").Fits := safe_fits safe (List.forall_mem_nil _)
  have ok : ∀ reply ∈ [encodeText "OK".toList], Sendable reply :=
    List.forall_mem_singleton.mpr (text_sendable (by simp))
  have calm : ∀ b : UInt8, Calm "n/a" (.put "n/a" [b]) := by
    rintro b base data ⟨⟩
    exact tmpKey_ne _
  obtain ⟨store₁, answered₁, _⟩ := answer_put id Storage.empty [1] safe (by decide)
  obtain ⟨store₂, answered₂, _⟩ := answer_put id store₁ [2] safe (by decide)
  obtain ⟨store₃, answered₃, shown⟩ := answer_put id store₂ [1] safe (by decide)
  have found : answer id store₃ (.get "n/a") = some (store₃, [encodeText "OK".toList, [1]]) := by
    rw [answer, shown]
  let okBytes : Bytes := [encodeText "OK".toList].flatMap frame
  let late : Link := ⟨(Request.put "n/a" [1]).bytes, [], true⟩
  let first : Ended :=
    ⟨.put "n/a" [1], .ok .done, [⟨Storage.empty, (Request.put "n/a" [1]).bytes, okBytes⟩], true⟩
  let second : Ended := ⟨.put "n/a" [2], .ok .done, [⟨store₁, (Request.put "n/a" [2]).bytes, okBytes⟩], false⟩
  have begun : steps id [.begin (.put "n/a" [1])] (start Storage.empty) =
      some ⟨Storage.empty, none, [], some ⟨.put "n/a" [1], 0, none, [], false⟩, []⟩ := by
    rw [steps, step_begin (puts 1) rfl]
    rfl
  have lost : steps id (lostAttempt (.put "n/a" [1]))
      ⟨Storage.empty, none, [], some ⟨.put "n/a" [1], 0, none, [], false⟩, []⟩ =
      some ⟨Storage.empty, none, [late], some ⟨.put "n/a" [1], 1, none, [], true⟩, []⟩ :=
    steps_lostAttempt (by decide)
  have again : steps id (attempt (.put "n/a" [1]) [encodeText "OK".toList])
      ⟨Storage.empty, none, [late], some ⟨.put "n/a" [1], 1, none, [], true⟩, []⟩ =
      some ⟨store₁, some .fresh, [late], none, [first]⟩ :=
    steps_attempt (puts 1) rfl answered₁ ok
  have next := steps_call (s := ⟨store₁, some .fresh, [late], none, [first]⟩) (puts 2) rfl rfl answered₂ ok
  have served : steps id [.serveAbandoned 0 []] ⟨store₂, some .fresh, [late], none, [first, second]⟩ =
      some ⟨store₃, some .fresh, [⟨[], okBytes, true⟩], none, [first, second]⟩ := by
    have turned := turn_whole [] (puts 1) answered₃ ok
    simp only [steps, step, List.getElem?_cons_zero, late, turned]
    rfl
  have read := steps_call
    (s := ⟨store₃, some .fresh, [⟨[], okBytes, true⟩], none, [first, second]⟩) gets rfl rfl
    found (List.forall_mem_cons.mpr ⟨text_sendable (by simp), byte 1⟩)
  let get : Ended := ⟨.get "n/a", answerValue id store₃ (.get "n/a"), [⟨store₃, (Request.get "n/a").bytes,
    [encodeText "OK".toList, [1]].flatMap frame⟩], false⟩
  refine ⟨⟨store₃, some .fresh, [⟨[], okBytes, true⟩], none, [first, second] ++ [get]⟩, first, second, get,
    ?_, rfl, ?_, rfl, ?_⟩
  · refine ((((steps_run (OwnAction "n/a") ?_ begun).trans (steps_run _ ?_ lost)).trans
      (steps_run _ ?_ again)).trans
      ((steps_run _ ?_ next).trans (steps_run _ ?_ served))).trans (steps_run _ ?_ read)
    · simpa [OwnAction] using calm 1
    · simp [lostAttempt, OwnAction]
    · simp [attempt, OwnAction]
    · simpa [attempt, OwnAction] using calm 2
    · simp [OwnAction]
    · simp [attempt, OwnAction, Calm]
  · exact ⟨second, [], rfl, rfl, rfl, List.forall_mem_nil _⟩
  · rw [show get.outcome = answerValue id store₃ (.get "n/a") from rfl, answerValue, shown]

/-- The get of that run has the value that was lost. -/
theorem reads_lost : ∃ s, Relation.ReflTransGen (OwnStep id "n/a") (start Storage.empty) s ∧
    ReadsWritten "n/a" s.log ∧ ¬ ReadsLatest s.log := by
  obtain ⟨s, first, second, get, run, log, last, asked, returned⟩ := stale_run
  refine ⟨s, run, reads_written id "n/a" Storage.empty s run, fun latest => ?_⟩
  have wrong := latest "n/a" [first, second] get [] [first] [2] (some [1]) log last asked returned
  exact absurd wrong (by decide)

/-- Without another client, and treating each PUT as one step. -/
theorem stale_read : ¬ ∀ (repr : String → String) (store : Storage) (s : ClientSession),
    Relation.ReflTransGen (fun a b => ∃ action, (∀ other, action ≠ .others other) ∧ step repr action a = some b)
      (start store) s → ReadsLatest s.log := by
  intro claim
  obtain ⟨s, first, second, get, run, log, last, asked, returned⟩ := stale_run
  have latest := claim id Storage.empty s (by
    refine Relation.ReflTransGen.mono ?_ _ _ run
    rintro a b ⟨action, own, moved⟩
    refine ⟨action, ?_, moved⟩
    rintro other rfl
    exact own)
  have wrong := latest "n/a" [first, second] get [] [first] [2] (some [1]) log last asked returned
  exact absurd wrong (by decide)

end SecureTransfer.ApproachB
