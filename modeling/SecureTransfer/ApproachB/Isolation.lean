import SecureTransfer.ApproachB.Stock
import SecureTransfer.ApproachB.Listing
import SecureTransfer.ApproachB.Transparent
import Mathlib.Data.Prod.Lex
import Mathlib.Data.String.Basic

/-! # Jobs in different namespaces

A job puts, gets and lists in one namespace of the store. Jobs in different namespaces do not
notice each other: each has the run it has alone.
-/

namespace SecureTransfer.ApproachB

open Library

variable {P : Primitives}

/-! ## One command -/

/-- `storeBroker` at one command. -/
def serveOnce (o : Outcome) (c : BrokerCall) (store : Storage) : c.Reply × Storage :=
  ((storeBroker.serve c (store, [o])).1, (storeBroker.serve c (store, [o])).2.1)

theorem serveOnce_get (o : Outcome) (key : String) (store : Storage) :
    serveOnce o (.get key) store = (if o = .answered then .ok (store.get key) else .error unreachable, store) := by
  cases o with
  | answered | dropped | droppedAfter => rfl

theorem serveOnce_list (o : Outcome) (start : String) (store : Storage) :
    serveOnce o (.list start) store =
      (if o = .answered then .ok ((store.list start).flatMap splitLines) else .error unreachable, store) := by
  cases o with
  | answered | dropped | droppedAfter => rfl

theorem serveOnce_put (o : Outcome) (key : String) (data : Bytes) (store : Storage) :
    store.put key data = some (serveOnce o (.put key data) store).2 ∨
      ((serveOnce o (.put key data) store).2 = store ∧ (serveOnce o (.put key data) store).1 ≠ .ok ()) :=
  storeBroker_put (show storeBroker.put key data (store, [o]) = (_, _) from rfl)

/-- `storeBroker` serves one client with the outcomes of its script. -/
theorem storeBroker_serve : storeBroker.serve = Sharing.scripted serveOnce .answered := by
  funext c b
  obtain ⟨store, script⟩ := b
  rcases script with _ | ⟨_ | _ | _, rest⟩ <;> cases c with
  | list | get => rfl
  | put key data =>
      simp only [Broker.serve, Sharing.scripted, serveOnce, storeBroker, nextOutcome]
      cases store.put key data with
      | none | some => rfl

/-! ## One namespace of a store -/

/-- Two stores hold the same in a namespace. -/
def SameIn (space : String) (store lone : Storage) : Prop := ∀ name, store.find (space, name) = lone.find (space, name)

/-- The commands within a namespace. -/
def InSpace (space : String) : BrokerCall → Prop
  | .list start => '/' ∉ space.toList ∧ start = space ++ "/"
  | .get key | .put key _ => ∀ path, safePath key = some path → path.1 = space

section Storage

variable {space other : String} {store lone : Storage}

theorem SameIn.get (same : SameIn space store lone) {key : String} (inside : InSpace space (.get key)) :
    store.get key = lone.get key := by
  rw [Storage.get, Storage.get]
  cases safe : safePath key with
  | none => rfl
  | some path =>
      obtain rfl := inside path safe
      exact same path.2

theorem SameIn.put (same : SameIn space store lone) (key : String) (data : Bytes) :
    (store.put key data = none ∧ lone.put key data = none) ∨
      ∃ after after', store.put key data = some after ∧ lone.put key data = some after' ∧
        SameIn space after after' := by
  cases safe : safePath key with
  | none =>
      left
      constructor <;> grind [Storage.put]
  | some path =>
      by_cases named : path.2 = "."
      · left
        constructor <;> grind [Storage.put]
      · right
        obtain ⟨after, put⟩ := store.put_some data safe named
        obtain ⟨after', put'⟩ := lone.put_some data safe named
        refine ⟨after, after', put, put', fun name => ?_⟩
        rw [Storage.put_lookup safe put, Storage.put_lookup safe put', same]

/-- A PUT elsewhere. -/
theorem SameIn.put_other (same : SameIn space store lone) (apart : other ≠ space) {key : String} {data : Bytes}
    {after : Storage} (inside : InSpace other (.put key data)) (put : store.put key data = some after) :
    SameIn space after lone := by
  intro name
  obtain ⟨path, safe⟩ := Storage.put_safe put
  obtain rfl := inside path safe
  rw [Storage.put_lookup safe put, if_neg, if_neg, same]
  · exact fun here => apart (Prod.mk.inj here).1.symm
  · exact fun here => apart (congrArg Prod.fst here).symm

/-! ## Listing a namespace -/

/-- The keys that start with a namespace are those in it. -/
theorem startsWith_space (noSlash : '/' ∉ space.toList) {path : BlobPath} (legal : '/' ∉ path.1.toList) :
    (space ++ "/").toList <+: (path.1 ++ "/" ++ path.2).toList ↔ path.1 = space := by
  have slash : "/".toList = ['/'] := rfl
  simp only [String.toList_append, slash, List.append_assoc, List.singleton_append]
  constructor
  · rintro ⟨rest, split⟩
    have cut := congrArg (List.takeWhile (· ≠ '/')) split
    rw [List.append_assoc, List.singleton_append, takeWhile_slash _ noSlash, takeWhile_slash _ legal] at cut
    exact String.toList_injective cut.symm
  · rintro rfl
    exact ⟨path.2.toList, by simp⟩

/-- The order `sorted` lists paths in. -/
theorem pathLe_iff (a b : BlobPath) : (a.1 < b.1 ∨ (a.1 = b.1 ∧ a.2 ≤ b.2)) ↔ toLex a ≤ toLex b :=
  Prod.Lex.toLex_le_toLex.symm

/-- The paths of a namespace in the order LIST goes through them. -/
def Storage.pathsIn (store : Storage) (start : String) : List BlobPath :=
  ((store.blobs.keys.filter fun path => !isTmp path.2).mergeSort fun a b =>
    decide (a.1 < b.1 ∨ (a.1 = b.1 ∧ a.2 ≤ b.2))).filter fun path =>
      start.toList.isPrefixOf (path.1 ++ "/" ++ path.2).toList

theorem Storage.list_eq (store : Storage) (start : String) :
    store.list start = (store.pathsIn start).map fun path => path.1 ++ "/" ++ path.2 := by
  rw [Storage.list, Storage.pathsIn, List.filter_map]
  rfl

theorem Storage.mem_pathsIn {start : String} {path : BlobPath} :
    path ∈ store.pathsIn start ↔ ((store.find path).isSome ∧ isTmp path.2 = false) ∧
      start.toList <+: (path.1 ++ "/" ++ path.2).toList := by
  simp [Storage.pathsIn, Storage.find, AList.lookup_isSome, AList.mem_keys]

theorem Storage.pathsIn_sorted (store : Storage) (start : String) :
    (store.pathsIn start).Pairwise fun a b => toLex a ≤ toLex b := by
  let before (a b : BlobPath) : Bool := decide (a.1 < b.1 ∨ (a.1 = b.1 ∧ a.2 ≤ b.2))
  have trans : ∀ a b c, before a b → before b c → before a c := by
    intro a b c first second
    simp only [before, decide_eq_true_eq, pathLe_iff] at first second ⊢
    exact first.trans second
  have total : ∀ a b, before a b || before b a := by
    intro a b
    simp only [before, Bool.or_eq_true, decide_eq_true_eq, pathLe_iff]
    exact le_total _ _
  have sorted := List.pairwise_mergeSort trans total (store.blobs.keys.filter fun path => !isTmp path.2)
  refine (sorted.imp fun before => ?_).filter _
  rw [← pathLe_iff]
  exact of_decide_eq_true before

theorem Storage.pathsIn_nodup (store : Storage) (start : String) : (store.pathsIn start).Nodup := by
  have distinct := (AList.keys_nodup store.blobs).filter fun path => !isTmp path.2
  exact (distinct.perm (List.mergeSort_perm _ _).symm).filter _

theorem SameIn.list (same : SameIn space store lone) (noSlash : '/' ∉ space.toList) :
    store.list (space ++ "/") = lone.list (space ++ "/") := by
  have members : ∀ path, path ∈ store.pathsIn (space ++ "/") ↔ path ∈ lone.pathsIn (space ++ "/") := by
    have half : ∀ {store lone : Storage}, SameIn space store lone → ∀ path,
        path ∈ store.pathsIn (space ++ "/") → path ∈ lone.pathsIn (space ++ "/") := by
      intro store lone same path member
      obtain ⟨⟨there, visible⟩, starts⟩ := Storage.mem_pathsIn.mp member
      obtain ⟨key, safe⟩ := store.legal path (AList.lookup_isSome.mp there)
      obtain rfl := (startsWith_space noSlash (safePath_namespace safe)).mp starts
      have kept := same path.2
      exact Storage.mem_pathsIn.mpr ⟨⟨kept ▸ there, visible⟩, starts⟩
    exact fun path => ⟨half same path, half (fun name => (same name).symm) path⟩
  have equal : store.pathsIn (space ++ "/") = lone.pathsIn (space ++ "/") := by
    apply List.Perm.eq_of_pairwise ?_ (store.pathsIn_sorted _) (lone.pathsIn_sorted _)
    · exact (List.perm_ext_iff_of_nodup (store.pathsIn_nodup _) (lone.pathsIn_nodup _)).mpr members
    · exact fun a b _ _ first second => toLex.injective (first.antisymm second)
  rw [Storage.list_eq, Storage.list_eq, equal]

end Storage

/-! ## One turn -/

section Turns

variable {space other : String} {store lone : Storage} {c : BrokerCall}

/-- A command within the namespace gets the same reply and leaves the same there. -/
theorem SameIn.serve (same : SameIn space store lone) (inside : InSpace space c) (o : Outcome) :
    (serveOnce o c store).1 = (serveOnce o c lone).1 ∧
      SameIn space (serveOnce o c store).2 (serveOnce o c lone).2 := by
  cases c with
  | list start =>
      obtain ⟨noSlash, rfl⟩ := inside
      rw [serveOnce_list, serveOnce_list, same.list noSlash]
      exact ⟨rfl, same⟩
  | get key =>
      rw [serveOnce_get, serveOnce_get, same.get inside]
      exact ⟨rfl, same⟩
  | put key data =>
      simp only [serveOnce, Broker.serve, storeBroker]
      rcases same.put key data with ⟨refused, refused'⟩ | ⟨after, after', put, put', kept⟩
      · rw [refused, refused']
        cases o with
        | answered | dropped | droppedAfter => exact ⟨rfl, same⟩
      · rw [put, put']
        cases o with
        | answered | droppedAfter => exact ⟨rfl, kept⟩
        | dropped => exact ⟨rfl, same⟩

/-- A command in another namespace leaves this one alone. -/
theorem SameIn.serve_other (same : SameIn space store lone) (apart : other ≠ space) (inside : InSpace other c)
    (o : Outcome) : SameIn space (serveOnce o c store).2 lone := by
  cases c with
  | list start =>
      rw [serveOnce_list]
      exact same
  | get key =>
      rw [serveOnce_get]
      exact same
  | put key data =>
      rcases serveOnce_put o key data store with put | ⟨unchanged, _⟩
      · exact same.put_other apart inside put
      · rw [unchanged]
        exact same

end Turns

/-! ## Jobs -/

/-- The job works in one namespace: a send run in that of its transfer, a receive run in that of the
    id it was given. -/
inductive Job.Within (P : Primitives) (space : String) : Job → Prop where
  | send {args : SendArgs} {saved : Option Saved}
      (id : ∀ (t : Transfer P) (signature : Bytes), Sends t signature (send args saved) → t.hexId = space) :
      Within P space (send args saved)
  | receive {args : Args} {disk : Disk} (given : args.transferId.filter (· ≠ "") = some space) :
      Within P space (receive args disk)

theorem MayUpload.inSpace {t : Transfer P} {signature : Bytes} {stored : String → Prop} {c : BrokerCall}
    (may : MayUpload t signature stored c) : InSpace t.hexId c := by
  cases may with
  | list =>
      refine ⟨fun slash => ?_, rfl⟩
      rw [Transfer.hexId, hex, String.toList_ofList] at slash
      exact absurd (hexChars_class _ '/' slash) (by decide)
  | chunk inside small =>
      intro path safe
      rw [Transfer.safePath_chunk small] at safe
      cases safe
      rfl
  | manifest =>
      intro path safe
      rw [Transfer.safePath_manifest] at safe
      cases safe
      rfl
  | signature =>
      intro path safe
      rw [Transfer.safePath_signature] at safe
      cases safe
      rfl

theorem ReceiverAsks.inSpace {given : Option String} {space : String} (asked : given.filter (· ≠ "") = some space)
    {c : BrokerCall} (asks : ReceiverAsks given c) : InSpace space c := by
  cases c with
  | put key data => exact False.elim asks
  | list start => cases asks.2.symm.trans asked
  | get key =>
      intro path safe
      rcases asks space asked with rfl | rfl | ⟨i, rfl⟩
      · rw [manifestKey_join] at safe
        rw [safePath_suffix (by decide) safe]
      · rw [signatureKey_join] at safe
        rw [safePath_suffix (by decide) safe]
      · rw [chunkKey_join] at safe
        rw [safePath_suffix (fun slash => absurd (chunkName_class i '/' slash) (by decide)) safe]

theorem Job.Within.follows {space : String} {job : Job} (within : job.Within P space) :
    (job.client P).Follows (.asking (InSpace space)) (fun _ _ => True) () := by
  cases within with
  | @send args saved id =>
      rcases Job.send_cases P args saved with ⟨t, signature, sends⟩ | ⟨result, played⟩
      · obtain ⟨client, played, follows⟩ := sends.follows
        obtain rfl := id t signature sends
        rw [played.eq]
        exact (follows fun _ => False).transfer (fun _ _ => True) (fun _ _ _ _ => MayUpload.inSpace)
          (fun _ _ _ _ _ _ => trivial) (fun _ _ _ _ _ => trivial) trivial
      · rw [played.eq]
        exact .done trivial
  | @receive args disk given =>
      obtain ⟨client, plays, follows⟩ := receive_reading P args disk
      rw [(Job.PlayedBy.receive plays).eq]
      exact (follows none rfl).asks.transfer (fun _ _ => True) (fun _ _ _ _ => ReceiverAsks.inSpace given)
        (fun _ _ _ _ _ _ => trivial) (fun _ _ _ _ _ => trivial) trivial

/-! ## Jobs that take turns -/

section Traffic

variable {ι : Type} [DecidableEq ι] {jobs : ι → Job}

/-- The broker and its clients. -/
abbrev Traffic (jobs : ι → Job) : Type := Sharing BrokerCall BrokerCall.Reply (fun i => (jobs i).Result) Storage

/-- No job has asked for anything. -/
noncomputable def Traffic.start (P : Primitives) (jobs : ι → Job) (store : Storage) : Traffic jobs where
  server := store
  clients i := (jobs i).client P

/-- The commands of the jobs are served in any order, each with any outcome. -/
def Interleaved (s s' : Traffic jobs) : Prop := Relation.ReflTransGen (Sharing.Turn serveOnce) s s'

/-- A job may have its whole run while the others wait. -/
theorem Traffic.uninterrupted {s : Traffic jobs} {i : ι} (waits : s.clients i = (jobs i).client P)
    {script : List Outcome} {result : (jobs i).Result} {after : Storage} {rest : List Outcome}
    (run : (jobs i).run P storeBroker (s.server, script) = (result, (after, rest))) :
    Interleaved s (s.goOn after i (.done result)) := by
  have alone := Sharing.Turn.uninterrupted serveOnce .answered s i script
  rw [waits, ← storeBroker_serve, ← (jobs i).run_eq _ storeBroker, run] at alone
  exact alone

/-- **Isolation.** Jobs in different namespaces, their commands in any order: each that ends has
    the run it has alone at a store that starts like theirs in its namespace, with connections
    that fail where its own did. -/
theorem runs_isolated {space : ι → String} (apart : Function.Injective space)
    (within : ∀ i, (jobs i).Within P (space i)) {store : Storage} {s' : Traffic jobs}
    (run : Interleaved (Traffic.start P jobs store) s') (i : ι) (lone : Storage)
    (alike : SameIn (space i) store lone) :
    ∃ script after, SameIn (space i) s'.server after ∧ ∀ result, s'.clients i = .done result →
      (jobs i).run P storeBroker (lone, script) = (result, (after, [])) := by
  let stores : ι → Storage := fun j => if j = i then lone else store
  have seen : ∀ j, SameIn (space j) store (stores j) := by
    intro j
    by_cases here : j = i
    · subst here
      rw [show stores j = lone from if_pos rfl]
      exact alike
    · rw [show stores j = store from if_neg here]
      exact fun _ => rfl
  obtain ⟨script, after, sees, same⟩ := Sharing.Turn.isolated (fun i => InSpace (space i))
    (fun i => SameIn (space i)) .answered
    (fun _ _ o _ _ inside same => same.serve inside o)
    (fun _ _ _ o _ _ other inside same => same.serve_other (fun same => other (apart same)) inside o)
    seen (fun j => (within j).follows) run i
  refine ⟨script, after, sees, fun result ended => ?_⟩
  have alone := same []
  rw [List.append_nil, ended, show stores i = lone from if_pos rfl, ← storeBroker_serve] at alone
  rw [(jobs i).run_eq]
  exact alone

end Traffic

/-- Two sources under two ids. -/
def twoIds (i : Bool) : { raw : Bytes // raw.length = transferIdLen } :=
  ⟨List.replicate 16 (if i then 1 else 0), List.length_replicate⟩

/-- A run on a source of one byte asks for something: it ends as its broker lets it. -/
theorem oneByte_asks (id : { raw : Bytes // raw.length = transferIdLen }) :
    ∃ c next, (Job.send (oneByte 1 id) none).client (transparent fun _ _ => true) = .ask c next := by
  cases client : (Job.send (oneByte 1 id) none).client (transparent fun _ _ => true) with
  | ask c next => exact ⟨c, next, rfl⟩
  | done result =>
      obtain ⟨t, saved, receiver, file, _, total⟩ := oneByte_transfer (fun _ _ => true) 1 id
      have chose : t.saved = chosen none (oneByte 1 id) t.file.length := by
        rw [saved, file]
        rfl
      have ends : ∀ script, (send (transparent fun _ _ => true) storeBroker (oneByte 1 id)
          (atSender ⟨none, [], []⟩ (Storage.empty, script))).1 = result.1 := by
        intro script
        have played := Job.run_eq (P := transparent fun _ _ => true) (.send (oneByte 1 id) none) _ storeBroker
          (Storage.empty, script)
        rw [client] at played
        exact congrArg (fun played => played.1.1) played
      have same : send (transparent fun _ _ => true) storeBroker (oneByte 1 id) =
          sendFile (transparent fun _ _ => true) storeBroker (oneByte 1 id) t.file := by
        rw [file]
        rfl
      obtain ⟨w, served⟩ := sendFile_served t (by omega) none (w := atSender ⟨none, [], []⟩ (Storage.empty, []))
        rfl chose receiver rfl
      have list : storeBroker.list (t.hexId ++ "/") (Storage.empty, [.answered, .dropped]) =
          (.ok [], (Storage.empty, [.dropped])) := by
        simp only [storeBroker, nextOutcome, List.headD_cons, List.tail_cons, Storage.list_empty,
          List.flatMap_nil]
      have dropped : storeBroker.put (chunkKey t.hexId 0) (t.ciphertext 0) (Storage.empty, [.dropped]) =
          (.error unreachable, (Storage.empty, [])) := rfl
      have cut := sendFile_first_put_fails (oneByte 1 id) none t
        (w := atSender ⟨none, [], []⟩ (Storage.empty, [.answered, .dropped])) rfl chose receiver (by omega)
        (by omega) list dropped
      have zero := ends []
      have raised := ends [Outcome.answered, Outcome.dropped]
      rw [same, served] at zero
      rw [same, cut] at raised
      cases zero.trans raised.symm

/-- One sender gets its first reply, the other has its whole run, and the first goes on to its end. -/
theorem runs_isolated_twoIds :
    ∃ (s₁ s₂ s : Traffic fun i => Job.send (oneByte 1 (twoIds i)) none) (result other : Except Raised Int × SenderFiles)
      (script : List Outcome) (after : Storage),
      Sharing.Turn serveOnce (Traffic.start (transparent fun _ _ => true) _ Storage.empty) s₁ ∧
      s₁.clients true = (Job.send (oneByte 1 (twoIds true)) none).client (transparent fun _ _ => true) ∧
      Interleaved s₁ s₂ ∧ s₂.clients true = .done result ∧ s₂.clients false = s₁.clients false ∧
      Interleaved s₂ s ∧ s.clients true = .done result ∧ s.clients false = .done other ∧
      SameIn (hex (twoIds true).1) s.server after ∧
      Job.run (transparent fun _ _ => true) storeBroker (.send (oneByte 1 (twoIds true)) none) (Storage.empty, script) =
        (result, (after, [])) := by
  have apart : ∀ i j, hex (twoIds i).1 = hex (twoIds j).1 → i = j := by decide
  have within : ∀ i, (Job.send (oneByte 1 (twoIds i)) none).Within (transparent fun _ _ => true) (hex (twoIds i).1) := by
    refine fun i => .send fun t signature sends => ?_
    cases sends with
    | send source chose =>
        rw [Transfer.hexId, chose]
        rfl
  let start := Traffic.start (transparent fun _ _ => true) (fun i => Job.send (oneByte 1 (twoIds i)) none) Storage.empty
  obtain ⟨c, next, asks⟩ := oneByte_asks (twoIds false)
  let s₁ := start.goOn (serveOnce .answered c Storage.empty).2 false (next (serveOnce .answered c Storage.empty).1)
  have turn : Sharing.Turn serveOnce start s₁ := .serve false Outcome.answered asks
  have waits : s₁.clients true = (Job.send (oneByte 1 (twoIds true)) none).client (transparent fun _ _ => true) :=
    Sharing.goOn_other (by decide)
  cases ran : Job.run (transparent fun _ _ => true) storeBroker (.send (oneByte 1 (twoIds true)) none)
    (s₁.server, []) with
  | mk result b =>
      have alone : Interleaved s₁ (s₁.goOn b.1 true (.done result)) := Traffic.uninterrupted waits ran
      let s₂ := s₁.goOn b.1 true (.done result)
      let final := (s₂.clients false).play (Sharing.scripted serveOnce Outcome.answered) (s₂.server, [])
      let s := s₂.goOn final.2.1 false (.done final.1)
      have rest : Interleaved s₂ s := Sharing.Turn.uninterrupted serveOnce Outcome.answered s₂ false []
      have ended : s₂.clients true = .done result := Sharing.goOn_self
      have ended' : s.clients true = .done result := (Sharing.goOn_other (by decide)).trans ended
      obtain ⟨script, after, sees, same⟩ := runs_isolated (fun i j => apart i j) within
        (.head turn (alone.trans rest)) true Storage.empty fun _ => rfl
      exact ⟨s₁, s₂, s, result, final.1, script, after, turn, waits, alone, ended, Sharing.goOn_other (by decide),
        rest, ended', Sharing.goOn_self, sees, same result ended'⟩

end SecureTransfer.ApproachB
