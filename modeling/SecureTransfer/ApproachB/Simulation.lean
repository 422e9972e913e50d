import SecureTransfer.ApproachB.Twins
import Mathlib.Data.Set.Finite.Basic

/-! # Threads in step with whole commands

While no thread disturbs another one, jobs that are served by threads go through a run of the
network that serves each command at one moment: a PUT when its thread renames its file, a GET when
its thread opens the blob or does not find it.
-/

namespace SecureTransfer.ApproachB

open Library

variable {repr : String → String}

/-! ## The threads -/

namespace Threads

variable {κ : Type} {commands : κ → BlobCommand} {s : Threads κ} {i : κ}

theorem outcome_waiting (waiting : s.stages i = .waiting) : s.outcome i = none := by
  rw [outcome, waiting]
  rfl

theorem outcome_isSome {s' : Threads κ} (same : s'.stages i = s.stages i) :
    (s'.outcome i).isSome = (s.outcome i).isSome := by
  rw [outcome, outcome, same]
  cases s.stages i with
  | _ => rfl

/-- The blob of a reply came with a PUT. -/
theorem Kept.blob_put (kept : s.Kept commands) {data : Bytes} (known : s.outcome i = some (.blob data)) :
    ∃ j key, commands j = .put key data ∧ s.stages j ≠ .waiting := by
  have fits := kept.fits i
  rw [outcome] at known
  cases here : s.stages i with
  | getOpened path file =>
      rw [here] at known
      cases known
      obtain ⟨j, key, command, _, later⟩ := (kept.readers i path file here).complete
      exact ⟨j, key, command, later⟩
  | answered reply =>
      rw [here] at known fits
      cases known
      cases command : commands i with
      | put key data =>
          rw [command] at fits
          cases fits
      | get key =>
          rw [command] at fits
          obtain ⟨path, safe⟩ := fits
          obtain ⟨j, key', put, _, later⟩ := kept.answers i key path data command safe here
          exact ⟨j, key', put, later⟩
  | _ =>
      rw [here] at known
      cases known

variable [DecidableEq κ]

/-- A thread that waits may be given another command. -/
theorem Kept.assign (kept : s.Kept commands) (waiting : s.stages i = .waiting) (command : BlobCommand) :
    s.Kept (Function.update commands i command) := by
  have put : ∀ {path data}, s.Put commands path data → s.Put (Function.update commands i command) path data := by
    rintro path data ⟨j, key, same, safe, later⟩
    have other : j ≠ i := by
      rintro rfl
      exact later waiting
    exact ⟨j, key, by rwa [Function.update_of_ne other], safe, later⟩
  refine ⟨?_, kept.single, kept.windows, kept.writers, ?_, ?_, ?_⟩
  · intro j
    by_cases here : j = i
    · rw [here, waiting]
      cases Function.update commands i command i with
      | put | get => trivial
    · rw [Function.update_of_ne here]
      exact kept.fits j
  · exact fun path file named => (kept.published path file named).imp_right put
  · intro j path file opened
    obtain ⟨complete, below, named⟩ := kept.readers j path file opened
    exact ⟨put complete, below, named⟩
  · intro j key path data same safe answered
    by_cases here : j = i
    · rw [here, waiting] at answered
      cases answered
    · rw [Function.update_of_ne here] at same
      exact put (kept.answers j key path data same safe answered)

theorem Shows.assign {store : Storage} (shows : s.Shows commands store) (waiting : s.stages i = .waiting)
    (command : BlobCommand) : s.Shows (Function.update commands i command) store :=
  ⟨shows.kept.assign waiting command, shows.same⟩

omit [DecidableEq κ] in
theorem not_uses {path : BlobPath} (visible : isTmp path.2 = false) : ¬ s.Uses path := by
  rintro ⟨_, other, _, _, rfl⟩
  rw [tmpPath, isTmp_append] at visible
  cases visible

/-- A LIST finds what the store lists. -/
theorem Shows.lists {store : Storage} (shows : s.Shows commands store) {start : String} {keys : List String}
    (found : s.Lists start keys) : keys = store.list start := by
  obtain ⟨paths, sorted, members, rfl⟩ := found
  rw [Storage.list_eq, List.filter_map]
  congr 1
  have ordered := (sorted.imp fun {a b : BlobPath} (before : toLex a < toLex b) => le_of_lt before).filter
    ((fun key => start.toList.isPrefixOf key.toList) ∘ fun path => path.1 ++ "/" ++ path.2)
  apply List.Perm.eq_of_pairwise ?_ ordered (store.pathsIn_sorted start)
  · apply (List.perm_ext_iff_of_nodup ?_ (store.pathsIn_nodup start)).mpr
    · intro path
      rw [List.mem_filter, members, Storage.mem_pathsIn, Function.comp_apply, List.isPrefixOf_iff_prefix]
      refine and_congr_left fun _ => and_congr_left fun visible => ?_
      rw [← shows.same path (not_uses visible), content, Option.isSome_map]
    · exact (sorted.imp fun {a b} before => ne_of_apply_ne toLex (ne_of_lt before)).filter _
  · exact fun a b _ _ first second => toLex.injective (le_antisymm first second)

/-- And one look can find all of it. -/
theorem Shows.listing {store : Storage} (shows : s.Shows commands store) (start : String) :
    s.Lists start (store.list start) := by
  have all : store.pathsIn "" = (store.blobs.keys.filter fun path => !isTmp path.2).mergeSort fun a b =>
      decide (a.1 < b.1 ∨ (a.1 = b.1 ∧ a.2 ≤ b.2)) :=
    List.filter_eq_self.mpr fun _ _ => rfl
  refine ⟨store.pathsIn "", ?_, fun path => ?_, by rw [all]; rfl⟩
  · refine (store.pathsIn_sorted "").imp₂ (fun a b before other => ?_) (store.pathsIn_nodup "")
    exact lt_of_le_of_ne before fun same => other (toLex.injective same)
  · rw [Storage.mem_pathsIn, and_iff_left (show "".toList <+: _ from List.nil_prefix)]
    refine and_congr_left fun visible => ?_
    rw [← shows.same path (not_uses visible), content, Option.isSome_map]

end Threads

theorem answer_request {command : BlobCommand} (legal : command.Legal) (store : Storage) :
    answer repr store command.request =
      some ((serve command store).2, command.frames repr (serve command store).1) := by
  cases command with
  | put key data =>
      obtain ⟨path, safe, named⟩ := legal.storable key data rfl
      obtain ⟨after, put⟩ := store.put_some data safe named
      have accepted : ¬ (safePath key).isNone = true := by
        rw [safe]
        exact Bool.false_ne_true
      rw [BlobCommand.request, answer, if_neg accepted, serve, put]
      rfl
  | get key =>
      rw [BlobCommand.request, answer, serve]
      cases store.get key with
      | none | some => rfl

/-- What is sent for the outcome of a command fits its frames. -/
theorem Threads.Kept.sendable {κ : Type} {s : Threads κ} {commands : κ → BlobCommand} {store : Storage}
    (kept : s.Kept commands) (legal : ∀ j, s.stages j ≠ .waiting → (commands j).Legal) {j : κ}
    (busy : s.stages j ≠ .waiting) (known : s.outcome j = some (serve (commands j) store).1) :
    ∀ frame ∈ (commands j).frames repr (serve (commands j) store).1, Sendable frame := by
  have ok : Sendable (encodeText "OK".toList) := text_sendable (by simp)
  cases command : commands j with
  | put key data =>
      obtain ⟨path, safe, named⟩ := (legal j busy).storable key data command
      obtain ⟨after, put⟩ := store.put_some data safe named
      rw [serve, put]
      exact List.forall_mem_singleton.mpr ok
  | get key =>
      rw [command, serve] at known
      rw [serve]
      cases present : store.get key with
      | none => exact List.forall_mem_singleton.mpr (text_sendable (by simp))
      | some data =>
          rw [present] at known
          obtain ⟨k, key', put, later⟩ := kept.blob_put known
          have fits := (legal k later).fits
          rw [put] at fits
          have fitting : Sendable data := fits data (by simp [BlobCommand.request, Request.payload])
          exact List.forall_mem_cons.mpr ⟨ok, List.forall_mem_singleton.mpr fitting⟩

theorem small_empty {command : BlobCommand} (legal : command.Legal) :
    ∀ frame ∈ command.frames repr (serve command .empty).1, Sendable frame := by
  cases command with
  | put key data =>
      obtain ⟨path, safe, named⟩ := legal.storable key data rfl
      obtain ⟨after, put⟩ := Storage.empty.put_some data safe named
      rw [serve, put]
      exact List.forall_mem_singleton.mpr (text_sendable (by simp))
  | get key =>
      have nothing : Storage.empty.get key = none := by
        rw [Storage.get]
        cases safePath key with
        | none | some => rfl
      rw [serve, nothing]
      exact List.forall_mem_singleton.mpr (text_sendable (by simp))

/-! ## The network at one moment for each command -/

theorem ClientAction.Own.works {a : ClientAction} (own : a.Own) : a.Works := by
  cases a with
  | connect | send | receive | fail => trivial
  | begin | serve | serveAbandoned | others => exact False.elim own

/-- What is on a connection, and what would be there if a command were served when its outcome is
    settled. -/
inductive Ahead (repr : String → String) (command : BlobCommand) (stage : Stage) (outcome : Option BlobReply) :
    Link → Link → Prop where
  | idle {link : Link} (waiting : stage = .waiting) : Ahead repr command stage outcome link link
  | reading {rest out : Bytes} (busy : stage ≠ .waiting) (pending : outcome = none) :
      Ahead repr command stage outcome ⟨rest, out, true⟩ ⟨command.request.bytes ++ rest, out, true⟩
  | replying {rest out : Bytes} {reply : BlobReply} (busy : stage ≠ .waiting) (known : outcome = some reply) :
      Ahead repr command stage outcome ⟨rest, out, true⟩ ⟨rest, out ++ (command.frames repr reply).flatMap frame, true⟩

theorem Ahead.congr {command : BlobCommand} {stage stage' : Stage} {outcome : Option BlobReply}
    (awake : stage = .waiting ↔ stage' = .waiting) :
    Ahead repr command stage outcome = Ahead repr command stage' outcome := by
  have half : ∀ {stage stage'}, (stage = .waiting ↔ stage' = .waiting) → ∀ l l',
      Ahead repr command stage outcome l l' → Ahead repr command stage' outcome l l' := by
    intro stage stage' awake l l' ahead
    cases ahead with
    | idle waiting => exact .idle (awake.mp waiting)
    | reading busy pending => exact .reading (awake.not.mp busy) pending
    | replying busy known => exact .replying (awake.not.mp busy) known
  funext l l'
  exact propext ⟨half awake l l', half awake.symm l l'⟩

theorem Stage.next_awake {count : Nat} {files : FileTable BlobPath UInt8} {stage : Stage}
    {after : FileTable BlobPath UInt8 × Stage} (moved : stage.next count files = some after) :
    stage ≠ .waiting ∧ after.2 ≠ .waiting := by
  cases stage with
  | waiting | answered | failed => cases moved
  | putAccepted | putRenamed | getOpened =>
      cases moved
      exact ⟨Stage.noConfusion, Stage.noConfusion⟩
  | putWriting | putClosed | getAccepted | getFound =>
      refine ⟨Stage.noConfusion, ?_⟩
      simp only [Stage.next] at moved
      split at moved
      · cases moved
        exact Stage.noConfusion
      · first
          | cases moved
            exact Stage.noConfusion
          | split at moved <;> cases moved <;> exact Stage.noConfusion

theorem Threads.step_next_stages {κ : Type} [DecidableEq κ] {commands : κ → BlobCommand} {s s' : Threads κ} {i : κ}
    {count : Nat} (moved : s.step commands (.next i count) = some s') :
    s.stages i ≠ .waiting ∧ s'.stages i ≠ .waiting ∧ ∀ j, j ≠ i → s'.stages j = s.stages j := by
  rw [step] at moved
  obtain ⟨after, next, rfl⟩ := Option.map_eq_some_iff.mp moved
  obtain ⟨busy, awake⟩ := Stage.next_awake next
  exact ⟨busy, by rwa [setStage_self], fun j other => setStage_other other⟩

section Networks

variable {ι : Type} {γ : ι → Type}

namespace ThreadedNetwork

/-- A thread has a command of this connection in hand. -/
def Busy (f : ThreadedNetwork γ) (i : ι) (c : Nat) : Prop := f.threads.stages (f.thread i c) ≠ .waiting

/-- How a connection differs from one that is ahead, when `outcomes` are settled. -/
def Related (repr : String → String) (f : ThreadedNetwork γ) (outcomes : ThreadId ι → Option BlobReply) (i : ι)
    (c : Nat) : Link → Link → Prop :=
  Ahead repr (f.commands (f.thread i c)) (f.threads.stages (f.thread i c)) (outcomes (f.thread i c))

/-- The jobs of `n` are those of `f`, and its connections are ahead of those of `f`. -/
structure Mirrors [DecidableEq ι] (repr : String → String) (outcomes : ThreadId ι → Option BlobReply)
    (f : ThreadedNetwork γ) (n : Network γ) : Prop where
  parties : n.parties = f.parties
  legal : ∀ κ, f.threads.stages κ ≠ .waiting → (f.commands κ).Legal
  twins : ∀ i, Twin (f.Related repr outcomes i) (f.Busy i) (f.sessions i) (n.session i)

/-- `n` serves each command of `f` when its outcome is settled. -/
structure Simulated [DecidableEq ι] (repr : String → String) (f : ThreadedNetwork γ) (n : Network γ) : Prop where
  shows : f.threads.Shows f.commands n.store
  mirrors : f.Mirrors repr f.threads.outcome n

variable [DecidableEq ι] {f f' : ThreadedNetwork γ} {n n' : Network γ} {outcomes : ThreadId ι → Option BlobReply}
  {i : ι} {c : Nat} {text : ClientError → String}

omit [DecidableEq ι] in
theorem related_idle : Idles (f.Related repr outcomes i) (f.Busy i) := by
  intro c l l' free
  have waiting := not_not.mp free
  constructor
  · intro ahead
    cases ahead with
    | idle => rfl
    | reading busy => exact absurd waiting busy
    | replying busy => exact absurd waiting busy
  · rintro rfl
    exact .idle waiting

namespace Mirrors

/-- A session makes a step on both sides. -/
theorem moves (mirrors : f.Mirrors repr outcomes n) {s a : ClientSession}
    (twin : Twin (f.Related repr outcomes i) (f.Busy i) s a) {parties parties' : ∀ i, Party (γ i)}
    (alike : parties' = parties) :
    Mirrors repr outcomes { f.moves i s with parties } { n.moves i a with parties := parties' } where
  parties := alike
  legal := mirrors.legal
  twins j := by
    by_cases here : j = i
    · subst here
      change Twin _ _ (Function.update f.sessions j s j) ((n.moves j a).session j)
      rw [Function.update_self, Network.session_moves_self]
      exact twin
    · change Twin _ _ (Function.update f.sessions i s j) ((n.moves i a).session j)
      rw [Function.update_of_ne here, Network.session_moves_other n here]
      exact (mirrors.twins j).store a.store

end Mirrors

namespace Simulated

variable (simulated : f.Simulated repr n)
include simulated

/-- The session of one client moves, and the store stays. -/
theorem moves {s a : ClientSession} (twin : Twin (f.Related repr f.threads.outcome i) (f.Busy i) s a)
    (same : a.store = n.store) {parties parties' : ∀ i, Party (γ i)} (alike : parties' = parties) :
    Simulated repr { f.moves i s with parties } { n.moves i a with parties := parties' } where
  shows := by
    change f.threads.Shows f.commands a.store
    rw [same]
    exact simulated.shows
  mirrors := simulated.mirrors.moves twin alike

theorem begin {c : BrokerCall} {next : c.Reply → Party (γ i)} {s : ClientSession} (asks : f.parties i = .ask c next)
    (moved : ClientSession.step repr (.begin c.request) (f.sessions i) = some s) :
    ∃ n', Network.Step repr text n n' ∧ Simulated repr (f.moves i s) n' := by
  obtain ⟨a, moved', same, twin⟩ := (simulated.mirrors.twins i).begin moved
  have asks' : n.parties i = .ask c next := by rw [simulated.mirrors.parties, asks]
  exact ⟨_, .begin i asks' moved', simulated.moves twin same simulated.mirrors.parties⟩

theorem work {action : ClientAction} {s : ClientSession} (own : action.Own)
    (moved : ClientSession.step repr action (f.sessions i) = some s) (log : s.log = (f.sessions i).log) :
    ∃ n', Network.Step repr text n n' ∧ Simulated repr (f.moves i s) n' := by
  have before := simulated.mirrors.twins i
  obtain ⟨action', a, own', moved', same, twin⟩ := before.own related_idle own moved
  exact ⟨_, .work i own'.works moved' (before.same_log twin own' moved' log),
    simulated.moves twin same simulated.mirrors.parties⟩

theorem finish {action : ClientAction} {s : ClientSession} {c : BrokerCall} {next : c.Reply → Party (γ i)}
    {ended : Ended} (own : action.Own) (moved : ClientSession.step repr action (f.sessions i) = some s)
    (log : s.log = (f.sessions i).log ++ [ended]) (asks : f.parties i = .ask c next) :
    ∃ n', Network.Step repr text n n' ∧ Simulated repr (f.movesOn i s (next (c.reply text ended.outcome))) n' := by
  have before := simulated.mirrors.twins i
  obtain ⟨action', a, own', moved', same, twin⟩ := before.own related_idle own moved
  obtain ⟨ended', log', outcome⟩ := before.ended twin own' moved' log
  have asks' : n.parties i = .ask c next := by rw [simulated.mirrors.parties, asks]
  refine ⟨_, .finish i own'.works moved' log' asks', simulated.moves twin same ?_⟩
  rw [simulated.mirrors.parties, outcome]

end Simulated

/-! ## Numbers of commands -/

theorem replies_answered (f : ThreadedNetwork γ) (i j : ι) (c d : Nat) (link : Link) (frames : List Bytes) :
    (f.replies i c link frames).answered j d = if j = i ∧ d = c then f.answered i c + 1 else f.answered j d := by
  change Function.update f.answered i _ j d = _
  by_cases same : j = i
  · subst same
    rw [Function.update_self, Function.update_apply]
    simp only [true_and]
  · rw [Function.update_of_ne same, if_neg fun both => same both.1]

theorem replies_thread (f : ThreadedNetwork γ) (i : ι) (c : Nat) (link : Link) (frames : List Bytes) :
    (f.replies i c link frames).thread i c = (i, c, f.answered i c + 1) := by
  rw [thread, replies_answered, if_pos ⟨rfl, rfl⟩]

/-- Threads take the commands of a connection one after the other. -/
structure Tidy (f : ThreadedNetwork γ) : Prop where
  past : ∀ i c m, m < f.answered i c → ∃ reply, f.threads.stages (i, c, m) = .answered reply
  later : ∀ i c m, f.answered i c < m → f.threads.stages (i, c, m) = .waiting
  few : Set.Finite {κ | f.threads.stages κ ≠ .waiting}

omit [DecidableEq ι] in
theorem tidy_start (parties : ∀ i, Party (γ i)) : (start parties).Tidy where
  past _ _ _ before := absurd before (Nat.not_lt_zero _)
  later _ _ _ _ := rfl
  few := Set.finite_empty.subset fun _ awake => awake rfl

/-- One thread moves. -/
theorem Tidy.threads (tidy : f.Tidy) {threads : Threads (ThreadId ι)} {κ : ThreadId ι}
    (others : ∀ j, j ≠ κ → threads.stages j = f.threads.stages j) (mine : κ = f.thread κ.1 κ.2.1)
    {f' : ThreadedNetwork γ} (moved : f'.threads = threads) (answered : f'.answered = f.answered) : f'.Tidy where
  past i c m before := by
    rw [answered] at before
    rw [moved, others]
    · exact tidy.past i c m before
    · rintro rfl
      have last : m = f.answered i c := congrArg (fun κ : ThreadId ι => κ.2.2) mine
      exact absurd before (last ▸ lt_irrefl _)
  later i c m after := by
    rw [answered] at after
    rw [moved, others]
    · exact tidy.later i c m after
    · rintro rfl
      have last : m = f.answered i c := congrArg (fun κ : ThreadId ι => κ.2.2) mine
      exact absurd after (last ▸ lt_irrefl _)
  few := by
    refine (tidy.few.insert κ).subset fun j awake => ?_
    by_cases here : j = κ
    · exact .inl here
    · refine .inr ?_
      change f.threads.stages j ≠ .waiting
      rw [← others j here, ← moved]
      exact awake

theorem Tidy.step (tidy : f.Tidy) (step : Step repr text f f') : f'.Tidy := by
  cases step with
  | begin | work | finish | list => exact ⟨tidy.past, tidy.later, tidy.few⟩
  | read i c => exact tidy.threads (fun _ other => Threads.setStage_other other) rfl rfl rfl
  | turn i c count undisturbed moved => exact tidy.threads (Threads.step_next_stages moved).2.2 rfl rfl rfl
  | @reply i c reply link there done =>
      refine ⟨fun j d m before => ?_, fun j d m after => ?_, tidy.few⟩
      · rw [replies_answered] at before
        split at before
        · rename_i here
          obtain ⟨rfl, rfl⟩ := here
          rcases Nat.lt_succ_iff_lt_or_eq.mp before with old | rfl
          · exact tidy.past j d m old
          · exact ⟨reply, done⟩
        · exact tidy.past j d m before
      · apply tidy.later j d m
        rw [replies_answered] at after
        split at after
        · rename_i here
          obtain ⟨rfl, rfl⟩ := here
          exact Nat.lt_of_succ_lt after
        · exact after

theorem Tidy.run (tidy : f.Tidy) (run : Relation.ReflTransGen (Step repr text) f f') : f'.Tidy := by
  induction run with
  | refl => exact tidy
  | tail _ step ih => exact ih.step step

/-! ## Steps of the threads -/

/-- Another connection is as it was when a thread read a command. -/
theorem reads_elsewhere (f : ThreadedNetwork γ) (command : BlobCommand) (link : Link) (rest : Bytes) {i j : ι}
    {c d : Nat} (other : f.thread j d ≠ f.thread i c) :
    (f.reads i c command link rest).Related repr outcomes j d = f.Related repr outcomes j d ∧
      ((f.reads i c command link rest).Busy j d ↔ f.Busy j d) := by
  have stage : (f.threads.setStage (f.thread i c) (received command)).stages (f.thread j d) =
      f.threads.stages (f.thread j d) := Threads.setStage_other other
  have same : Function.update f.commands (f.thread i c) command (f.thread j d) = f.commands (f.thread j d) :=
    Function.update_of_ne other ..
  constructor
  · change Ahead repr (Function.update f.commands (f.thread i c) command (f.thread j d))
      ((f.threads.setStage (f.thread i c) (received command)).stages (f.thread j d)) _ = _
    rw [stage, same]
    rfl
  · change (f.threads.setStage (f.thread i c) (received command)).stages (f.thread j d) ≠ _ ↔ _
    rw [stage]
    rfl

/-- The command that a thread read is still on the connection of the other network. -/
theorem Mirrors.reads (mirrors : f.Mirrors repr outcomes n) (pending : outcomes (f.thread i c) = none)
    (kept : (n.session i).Kept repr) {command : BlobCommand} {link : Link} {rest : Bytes}
    (there : (f.sessions i).links[c]? = some link) (serving : link.serving = true) (legal : command.Legal)
    (arrived : link.inbox = command.request.bytes ++ rest) (waiting : f.threads.stages (f.thread i c) = .waiting) :
    Mirrors repr outcomes (f.reads i c command link rest) n := by
  obtain ⟨inbox, out, on⟩ := link
  obtain rfl : on = true := serving
  obtain rfl : inbox = command.request.bytes ++ rest := arrived
  have given : Function.update f.commands (f.thread i c) command (f.thread i c) = command := Function.update_self ..
  refine ⟨mirrors.parties, fun κ used => ?_, fun j => ?_⟩
  · change (Function.update f.commands (f.thread i c) command κ).Legal
    by_cases here : κ = f.thread i c
    · rw [here, given]
      exact legal
    · rw [Function.update_of_ne here]
      apply mirrors.legal κ
      have same : (f.threads.setStage (f.thread i c) (received command)).stages κ = f.threads.stages κ :=
        Threads.setStage_other here
      rwa [← same]
  by_cases same : j = i
  · subst same
    have twin := mirrors.twins j
    obtain ⟨l', there', ahead⟩ := twin.there there
    obtain rfl := (related_idle (not_not.mpr waiting)).mp ahead
    have apart : ∀ {d}, d ≠ c → f.thread j d ≠ f.thread j c :=
      fun other equal => other (Prod.mk.inj (Prod.mk.inj equal).2).1
    change Twin _ _ (Function.update f.sessions j _ j) _
    rw [Function.update_self]
    refine twin.setLink (List.getElem?_eq_some_iff.mp there).1 (ClientSession.links_same there') rfl rfl rfl ?_
      (fun d other => f.reads_elsewhere command _ rest (apart other)) (fun here _ => ?_)
    · change Ahead repr (Function.update f.commands (f.thread j c) command (f.thread j c))
        ((f.threads.setStage (f.thread j c) (received command)).stages (f.thread j c)) _ _ _
      rw [given, Threads.setStage_self]
      exact .reading (Threads.received_fits legal.storable).2.1 pending
    · -- on the current connection the command is that of the call, and nothing comes behind it
      have link : (n.session j).link = some ⟨command.request.bytes ++ rest, out, true⟩ := by
        rw [← ClientSession.links_current, ← twin.length, ← here]
        exact there'
      obtain ⟨rfl, rfl, call, ongoing, sent⟩ := kept.whole_command legal.fits
        (answer_request legal .empty) (small_empty legal) link
      exact ⟨rfl, twin.ongoing' ongoing sent⟩
  · have apart : ∀ d, f.thread j d ≠ f.thread i c := fun d equal => same (Prod.mk.inj equal).1
    change Twin _ _ (Function.update f.sessions i _ j) _
    rw [Function.update_of_ne same]
    exact (mirrors.twins j).congr fun d => f.reads_elsewhere command _ rest (apart d)

/-- A thread's step is none of the other network, or the moment at which it serves the command. -/
theorem Mirrors.settle (mirrors : f.Mirrors repr outcomes n)
    (commits : (f.threads.outcome = outcomes ∧ f.threads.Shows f.commands n.store) ∨
      ∃ j, outcomes j = none ∧ f.threads.outcome = Function.update outcomes j (some (serve (f.commands j) n.store).1) ∧
        f.threads.Shows f.commands (serve (f.commands j) n.store).2)
    (only : ∀ j, j ≠ f.thread i c → (f.threads.outcome j).isSome = (outcomes j).isSome) (busy : f.Busy i c) :
    ∃ n', Relation.ReflTransGen (Network.Step repr text) n n' ∧ f.Simulated repr n' := by
  rcases commits with ⟨rfl, shows⟩ | ⟨j, pending, settled, shows⟩
  · exact ⟨n, .refl, shows, mirrors⟩
  obtain rfl : j = f.thread i c := by
    by_contra other
    have both := only j other
    rw [settled, Function.update_self, pending] at both
    cases both
  let command := f.commands (f.thread i c)
  have known : f.threads.outcome (f.thread i c) = some (serve command n.store).1 := by
    rw [settled, Function.update_self]
  have twin := mirrors.twins i
  obtain ⟨l, here⟩ : ∃ l, (f.sessions i).links[c]? = some l :=
    ⟨_, List.getElem?_eq_getElem (twin.opened c busy)⟩
  obtain ⟨l', there, ahead⟩ := twin.there here
  have legal := mirrors.legal _ busy
  cases ahead with
  | idle waiting => exact absurd waiting busy
  | replying _ settled' => exact absurd (pending.symm.trans settled') (Option.some_ne_none _).symm
  | @reading rest out =>
      have turned : Link.turn repr [] (n.session i).store ⟨command.request.bytes ++ rest, out, true⟩ = _ :=
        ClientSession.turn_bytes [] legal.fits (answer_request legal n.store)
          (shows.kept.sendable mirrors.legal busy known) rest out
      obtain ⟨action, a, works, moved, stored, links, length, call, log⟩ :=
        ClientSession.serve_link there turned
      have others : ∀ {j : ι} {d : Nat}, f.thread j d ≠ f.thread i c →
          f.Related repr f.threads.outcome j d = f.Related repr outcomes j d := by
        intro j d other
        rw [Related, Related, settled, Function.update_of_ne other]
      refine ⟨n.moves i a, .single (.work i works moved log), ?_, mirrors.parties, mirrors.legal, ?_⟩
      · change f.threads.Shows f.commands a.store
        rw [stored]
        exact shows
      · intro j
        by_cases same : j = i
        · subst same
          rw [Network.session_moves_self]
          refine twin.change (ClientSession.links_same here) links rfl length (twin.call.trans call.symm)
            (by rw [log]; exact twin.log) (.replying busy known) (fun d other => ?_) twin.opened twin.waits
          exact others fun equal => other (Prod.mk.inj (Prod.mk.inj equal).2).1
        · rw [Network.session_moves_other n same]
          exact ((mirrors.twins j).store a.store).congr
            fun d => ⟨others fun equal => same (Prod.mk.inj equal).1, Iff.rfl⟩

namespace Simulated

variable (simulated : f.Simulated repr n)
include simulated

/-- A thread makes a step on the directory. -/
theorem turn {count : Nat} {threads : Threads (ThreadId ι)}
    (undisturbed : f.threads.Undisturbed f.commands (.next (f.thread i c) count))
    (moved : f.threads.step f.commands (.next (f.thread i c) count) = some threads) :
    ∃ n', Relation.ReflTransGen (Network.Step repr text) n n' ∧ Simulated repr { f with threads } n' := by
  have commits := Threads.commits_step n.store f.threads threads simulated.shows ⟨_, undisturbed, moved⟩
  obtain ⟨busy, awake, others⟩ := Threads.step_next_stages moved
  have waiting : ∀ j, threads.stages j = .waiting ↔ f.threads.stages j = .waiting := by
    intro j
    by_cases here : j = f.thread i c
    · rw [here]
      exact iff_of_false awake busy
    · rw [others j here]
  have mirrors : Mirrors repr f.threads.outcome { f with threads } n :=
    { parties := simulated.mirrors.parties
      legal := fun j used => simulated.mirrors.legal j fun free => used ((waiting j).mpr free)
      twins := fun j => (simulated.mirrors.twins j).congr fun d => ⟨Ahead.congr (waiting _), (waiting _).not⟩ }
  exact mirrors.settle (i := i) (c := c) commits (fun j other => Threads.outcome_isSome (others j other)) awake

/-- A thread reads a command. -/
theorem read (kept : (n.session i).Kept repr) {command : BlobCommand} {link : Link} {rest : Bytes}
    (there : (f.sessions i).links[c]? = some link) (serving : link.serving = true) (legal : command.Legal)
    (arrived : link.inbox = command.request.bytes ++ rest) (waiting : f.threads.stages (f.thread i c) = .waiting) :
    ∃ n', Relation.ReflTransGen (Network.Step repr text) n n' ∧ Simulated repr (f.reads i c command link rest) n' := by
  have given : Function.update f.commands (f.thread i c) command (f.thread i c) = command := Function.update_self ..
  have moved : f.threads.step (Function.update f.commands (f.thread i c) command) (.receive (f.thread i c)) =
      some (f.threads.setStage (f.thread i c) (received command)) := by
    rw [Threads.step, waiting, given]
  have undisturbed : f.threads.Undisturbed (Function.update f.commands (f.thread i c) command)
      (.receive (f.thread i c)) := by
    intro key data same
    rw [given] at same
    exact legal.storable key data same
  have commits := Threads.commits_step n.store _ _ (simulated.shows.assign waiting command) ⟨_, undisturbed, moved⟩
  have mirrors := simulated.mirrors.reads (Threads.outcome_waiting waiting) kept there serving legal arrived waiting
  refine mirrors.settle (i := i) (c := c) commits (fun j other => ?_) ?_
  · exact Threads.outcome_isSome (Threads.setStage_other other)
  · change (f.threads.setStage (f.thread i c) (received command)).stages (f.thread i c) ≠ .waiting
    rw [Threads.setStage_self]
    exact (Threads.received_fits legal.storable).2.1

/-- A thread sends its reply. -/
theorem reply (tidy : f.Tidy) {reply : BlobReply} {link : Link} (there : (f.sessions i).links[c]? = some link)
    (done : f.threads.stages (f.thread i c) = .answered reply) :
    Simulated repr (f.replies i c link ((f.commands (f.thread i c)).frames repr reply)) n := by
  have twin := simulated.mirrors.twins i
  have known : f.threads.outcome (f.thread i c) = some reply := by
    rw [Threads.outcome, done]
    rfl
  obtain ⟨l', there', ahead⟩ := twin.there there
  have sent : l' = { link with
      outbox := link.outbox ++ ((f.commands (f.thread i c)).frames repr reply).flatMap frame } := by
    cases ahead with
    | idle waiting => cases done.symm.trans waiting
    | reading _ pending => cases known.symm.trans pending
    | replying _ settled =>
        cases known.symm.trans settled
        rfl
  let f' := f.replies i c link ((f.commands (f.thread i c)).frames repr reply)
  have elsewhere : ∀ {j : ι} {d : Nat}, ¬ (j = i ∧ d = c) → f'.thread j d = f.thread j d := by
    intro j d other
    rw [thread, replies_answered, if_neg other]
    rfl
  have free : ¬ f'.Busy i c := by
    rw [Busy, replies_thread, not_not]
    exact tidy.later i c _ (Nat.lt_succ_self _)
  have rel : ∀ {j : ι} {d : Nat}, ¬ (j = i ∧ d = c) →
      f'.Related repr f.threads.outcome j d = f.Related repr f.threads.outcome j d ∧ (f'.Busy j d ↔ f.Busy j d) := by
    intro j d other
    have same := elsewhere other
    rw [Related, Busy, same]
    exact ⟨rfl, Iff.rfl⟩
  refine ⟨simulated.shows, simulated.mirrors.parties, simulated.mirrors.legal, fun j => ?_⟩
  · by_cases same : j = i
    · subst same
      change Twin _ _ (Function.update f.sessions j _ j) _
      rw [Function.update_self]
      exact twin.setLink (List.getElem?_eq_some_iff.mp there).1 (ClientSession.links_same there') rfl rfl rfl
        ((related_idle free).mpr sent.symm) (fun d other => rel fun equal => other equal.2)
        fun _ used => absurd used free
    · change Twin _ _ (Function.update f.sessions i _ j) _
      rw [Function.update_of_ne same]
      exact (simulated.mirrors.twins j).congr fun d => rel fun equal => same equal.1

/-- A thread serves a LIST. -/
theorem list {start : String} {keys : List String} {link : Link} {rest : Bytes}
    (there : (f.sessions i).links[c]? = some link) (serving : link.serving = true) (fits : (Request.list start).Fits)
    (arrived : link.inbox = (Request.list start).bytes ++ rest)
    (waiting : f.threads.stages (f.thread i c) = .waiting) (found : f.threads.Lists start keys)
    (small : Sendable (encodeText (joinLines keys))) :
    ∃ n', Network.Step repr text n n' ∧ Simulated repr (f.moves i ((f.sessions i).setLink c { link with
      inbox := rest
      outbox := link.outbox ++ [encodeText "OK".toList, encodeText (joinLines keys)].flatMap frame })) n' := by
  obtain ⟨inbox, out, on⟩ := link
  obtain rfl : on = true := serving
  obtain rfl : inbox = (Request.list start).bytes ++ rest := arrived
  have twin := simulated.mirrors.twins i
  have free : ¬ f.Busy i c := not_not.mpr waiting
  obtain ⟨l', there', ahead⟩ := twin.there there
  obtain rfl := (related_idle free).mp ahead
  obtain rfl := simulated.shows.lists found
  have ok : Sendable (encodeText "OK".toList) := text_sendable (by simp)
  have both := List.forall_mem_cons.mpr ⟨ok, List.forall_mem_singleton.mpr small⟩
  have turned : Link.turn repr [] (n.session i).store ⟨(Request.list start).bytes ++ rest, out, true⟩ = _ :=
    ClientSession.turn_bytes [] fits rfl both rest out
  obtain ⟨action, a, works, moved, stored, links, length, call, log⟩ :=
    ClientSession.serve_link there' turned
  have twin' := twin.setLink (List.getElem?_eq_some_iff.mp there).1 links length call log ((related_idle free).mpr rfl)
    (fun _ _ => ⟨rfl, Iff.rfl⟩) fun _ used => absurd used free
  exact ⟨_, .work i works moved log, simulated.moves twin' stored simulated.mirrors.parties⟩

/-- The step lemma: what a step does, the network does in steps that serve a command at one moment. -/
theorem step (kept : ∀ i, (n.session i).Kept repr) (tidy : f.Tidy) (step : Step repr text f f') :
    ∃ n', Relation.ReflTransGen (Network.Step repr text) n n' ∧ f'.Simulated repr n' := by
  cases step with
  | begin i asks moved =>
      obtain ⟨n', step, simulated'⟩ : ∃ n', Network.Step repr text n n' ∧ _ :=
        simulated.begin asks moved
      exact ⟨n', .single step, simulated'⟩
  | work i own moved log =>
      obtain ⟨n', step, simulated'⟩ : ∃ n', Network.Step repr text n n' ∧ _ :=
        simulated.work own moved log
      exact ⟨n', .single step, simulated'⟩
  | finish i own moved log asks =>
      obtain ⟨n', step, simulated'⟩ := simulated.finish own moved log asks
      exact ⟨n', .single step, simulated'⟩
  | read i c there serving legal arrived waiting => exact simulated.read (kept i) there serving legal arrived waiting
  | turn i c count undisturbed moved => exact simulated.turn undisturbed moved
  | reply i c there done => exact ⟨n, .refl, simulated.reply tidy there done⟩
  | list i c there serving fits arrived waiting found small =>
      obtain ⟨n', step, simulated'⟩ : ∃ n', Network.Step repr text n n' ∧ _ :=
        simulated.list there serving fits arrived waiting found small
      exact ⟨n', .single step, simulated'⟩

/-- The run lemma, from any state of the network that is reached. -/
theorem run {first : ∀ i, Party (γ i)} {l : LateNetwork BrokerCall BrokerCall.Reply γ Storage}
    (refines : Network.Refines repr first n l) (tidy : f.Tidy) (run : Relation.ReflTransGen (Step repr text) f f') :
    ∃ n', Relation.ReflTransGen (Network.Step repr text) n n' ∧ f'.Simulated repr n' := by
  induction run with
  | refl => exact ⟨n, .refl, simulated⟩
  | tail before₁ step ih =>
      obtain ⟨n₁, before, simulated₁⟩ := ih
      obtain ⟨l₁, _, refines₁⟩ := refines.run before
      obtain ⟨n₂, more, simulated₂⟩ := simulated₁.step (fun i => (refines₁.tracked i).kept) (tidy.run before₁) step
      exact ⟨n₂, before.trans more, simulated₂⟩

theorem displays : f.Displays n.store := simulated.shows.same

theorem unused_iff : f.Unused i ↔ n.Unused i := by
  have twin := simulated.mirrors.twins i
  have lengths := twin.log_length
  rw [Unused, Network.Unused, twin.no_call, ← List.length_eq_zero_iff, ← List.length_eq_zero_iff, lengths]

end Simulated

theorem simulated_start (repr : String → String) (parties : ∀ i, Party (γ i)) :
    (start parties).Simulated repr (Network.start .empty parties) where
  shows := Threads.shows_start
  mirrors := {
    parties := rfl
    legal := fun _ awake => absurd rfl awake
    twins := fun _ => ⟨rfl, fun _ => .none, rfl, rfl, fun _ awake => absurd rfl awake, fun awake => absurd rfl awake⟩ }

end ThreadedNetwork

end Networks

end SecureTransfer.ApproachB
