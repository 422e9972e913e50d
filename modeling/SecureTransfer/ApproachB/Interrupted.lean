import SecureTransfer.ApproachB.Shelf

/-! # Interrupted downloads

A manifest that describes a file, and any answer to each request for a chunk. A run goes
on with what was recorded as done and ends at the first chunk it has to fetch and does
not get, or with the file.
-/

namespace SecureTransfer.ApproachB

open Library

/-- What becomes of a request for a chunk. -/
inductive Fetched where
  | correct
  | missing
  | other (bytes : Bytes)
  | failed (message : String)

namespace Fetched

/-- What the broker client returns, where `blob` is the correct one. -/
def reply (blob : Bytes) : Fetched → Except String (Option Bytes)
  | .correct => .ok (some blob)
  | .missing => .ok none
  | .other bytes => .ok (some bytes)
  | .failed message => .error message

/-- What the run raises then. -/
def raised (index : Nat) : Fetched → Option Raised
  | .correct => none
  | .missing => some (.verificationError (.chunkMissing index))
  | .other _ => some (.verificationError (.chunkTampered index))
  | .failed message => some (.brokerError message)

end Fetched

/-- The manifest is one of `file`: its chunks open from the blobs with the recorded digests. -/
structure Describes (P : Primitives) (manifest : Json) (plan : Plan) (file : Bytes) (blob : Nat → Bytes) :
    Prop where
  covers : plan.totalChunks = chunkCount chunkSize file.length
  chunks : ∀ i < plan.totalChunks, ChunkChecked P plan i (blob i) (chunk chunkSize i file)
  whole : Matches P manifest file

/-- `outcome` is what becomes of the requests from a state in `up` on. -/
structure Assigned {β : Type} (broker : Broker β) (up : β → Prop) (plan : Plan) (blob : Nat → Bytes)
    (outcome : Nat → Fetched) : Prop where
  reply : ∀ i < plan.totalChunks, ∀ b, up b → ∃ b', up b' ∧
    broker.get (chunkKey plan.transferIdHex i) b = ((outcome i).reply (blob i), b')
  altered : ∀ i < plan.totalChunks, ∀ bytes, outcome i = .other bytes → bytes ≠ blob i

/-- What is recorded as done is in place, and nothing lies past the end. -/
def PartAgrees (file : Bytes) (part : Option Bytes) (done : List Nat) : Prop :=
  done = [] ∨ ∃ content, part = some content ∧ content.length ≤ file.length ∧
    ∀ i ∈ done, HoldsAt content (i * chunkSize) (chunk chunkSize i file)

/-- The first chunk that is not done and whose request does not return it. -/
structure StopsAt (done : List Nat) (outcome : Nat → Fetched) (total j : Nat) : Prop where
  below : j < total
  new : j ∉ done
  lost : outcome j ≠ .correct
  before : ∀ i < j, i ∈ done ∨ outcome i = .correct

/-- A run that ended at chunk `j`: what the next one finds is `done` and the chunks below `j`. -/
structure EndsAt {β : Type} (plan : Plan) (file : Bytes) (outcome : Nat → Fetched) (done : List Nat)
    (j : Nat) (w : World β) (r : Except Raised Int) (w' : World β) : Prop where
  raises : ∃ e, (outcome j).raised j = some e ∧ r = .error e
  kept : w'.out = w.out ∧ w'.ledger = w.ledger
  progress : ∃ all, loadProgress w'.progress plan.transferIdHex = .ok (indexList all) ∧
    ∀ i, i ∈ all ↔ i ∈ done ∨ i < j
  part : ∃ content, w'.part = some content ∧
    ∀ i, i ∈ done ∨ i < j → HoldsAt content (i * chunkSize) (chunk chunkSize i file)

/-- A run that promoted the file. Only its last log line can still raise. -/
structure Completed {β : Type} (manifest : Json) (plan : Plan) (file : Bytes) (ids : List String)
    (r : Except Raised Int) (w' : World β) : Prop where
  promoted : w'.out = some file ∧ w'.part = none
  progress : w'.progress = none
  recorded : Recorded w'.ledger (plan.transferIdHex :: ids)
  returns : ∀ name, manifest.item "filename" = .ok name → r = .ok 0

variable {P : Primitives} {β : Type} {broker : Broker β} {up : β → Prop} {args : Args} {manifest : Json}
  {plan : Plan} {file : Bytes} {blob : Nat → Bytes} {outcome : Nat → Fetched} {done : List Nat}
  {ids : List String}

theorem StopsAt.unique {total j j' : Nat} (h : StopsAt done outcome total j)
    (h' : StopsAt done outcome total j') : j = j' := by
  rcases Nat.lt_trichotomy j j' with below | equal | above
  · exact absurd ((h'.before j below).resolve_left h.new) h.lost
  · exact equal
  · exact absurd ((h.before j' above).resolve_left h'.new) h'.lost

theorem got_of_not_stops {total : Nat} (h : ¬ ∃ j, StopsAt done outcome total j) {i : Nat} (below : i < total) :
    i ∈ done ∨ outcome i = .correct := by
  induction i using Nat.strongRecOn with
  | ind i before =>
      by_contra missed
      rw [not_or] at missed
      exact h ⟨i, below, missed.1, missed.2, fun k lower => before k lower (lower.trans below)⟩

/-! ## A manifest of `send` -/

theorem Transfer.Whole.describes {t : Transfer P} (opens : P.Opens) (whole : t.Whole) :
    Describes P t.loaded t.plan t.file t.ciphertext where
  covers := whole.covers
  chunks i inside := whole.checked opens inside
  whole := {
    size := ⟨_, t.loaded_item "file_size" rfl, (Json.eqInt_int _ _).mpr rfl⟩
    digest := by
      rw [t.loaded_item "plaintext_sha256" rfl, whole.plaintext_eq]
      rfl }

/-! ## One request -/

section Requests

variable (assigned : Assigned broker up plan blob outcome)

include assigned

theorem fetchChunk_correct (describes : Describes P manifest plan file blob) {i : Nat}
    (inside : i < plan.totalChunks) (correct : outcome i = .correct) (w : World β) (ok : up w.broker) :
    ∃ b, up b ∧ fetchChunk P broker plan i w = (.ok (chunk chunkSize i file), { w with broker := b }) := by
  obtain ⟨b, up', reply⟩ := assigned.reply i inside w.broker ok
  rw [correct] at reply
  exact ⟨b, up', fetchChunk_checked (describes.chunks i inside) reply⟩

/-- Whatever else comes back, the run raises and its files stay as they are. -/
theorem fetchChunk_lost (describes : Describes P manifest plan file blob)
    (collision_free : Set.InjOn P.sha256.digest
      {data | ∃ i < plan.totalChunks, data = blob i ∨ outcome i = .other data})
    {i : Nat} (inside : i < plan.totalChunks) (lost : outcome i ≠ .correct) (w : World β) (ok : up w.broker) :
    ∃ e b, (outcome i).raised i = some e ∧
      fetchChunk P broker plan i w = (.error e, { w with broker := b }) := by
  obtain ⟨b, _, reply⟩ := assigned.reply i inside w.broker ok
  obtain ⟨⟨record, found, digest, _⟩, _⟩ := describes.chunks i inside
  unfold fetchChunk
  rw [found]
  cases answer : outcome i with
  | correct => exact absurd answer lost
  | missing =>
      rw [answer] at reply
      exact ⟨_, b, rfl, Prog.bind_ok (callBroker_ok reply) _⟩
  | failed message =>
      rw [answer] at reply
      exact ⟨_, b, rfl, Prog.bind_error (callBroker_error reply) _⟩
  | other bytes =>
      rw [answer] at reply
      have differ : ¬ (Json.str (P.hexDigest (blob i))).eqStr (P.hexDigest bytes) = true := by
        rw [Json.eqStr_str]
        intro equal
        have same := collision_free ⟨i, inside, .inr answer⟩ ⟨i, inside, .inl rfl⟩ (hex_injective equal.symm)
        exact assigned.altered i inside bytes answer same
      have failed : ∀ w : World β, verify ((Json.str (P.hexDigest (blob i))).eqStr (P.hexDigest bytes) = true)
          (.chunkTampered i) w = (.error (.verificationError (.chunkTampered i)), w) := by
        intro w
        rw [verify, Prog.require_run, if_neg differ]
      refine ⟨_, b, rfl, (Prog.bind_ok (callBroker_ok reply) _).trans ?_⟩
      exact (Prog.bind_ok (python_run_ok digest _) _).trans (Prog.bind_error (failed _) _)

end Requests

/-! ## The resume point -/

/-- A run goes on with exactly what was recorded. -/
theorem PartAgrees.checkpoint {part : Option Bytes} (h : PartAgrees file part done) :
    (checkpoint part done).1 = done ∧ (checkpoint part done).2.length ≤ file.length ∧
      ∀ i ∈ done, HoldsAt (checkpoint part done).2 (i * chunkSize) (chunk chunkSize i file) := by
  by_cases none_done : done = []
  · subst none_done
    rw [checkpoint_nil]
    exact ⟨rfl, Nat.zero_le _, fun i member => nomatch member⟩
  · obtain ⟨content, rfl, short, held⟩ := h.resolve_left none_done
    rw [checkpoint_some none_done]
    exact ⟨rfl, short, held⟩

/-! ## The run -/

section Runs

variable (describes : Describes P manifest plan file blob) (assigned : Assigned broker up plan blob outcome)

include describes assigned

/-- The chunks before the one the loop stops at, and what is left of the run. -/
theorem chunkLoop_stops (collision_free : Set.InjOn P.sha256.digest
      {data | ∃ i < plan.totalChunks, data = blob i ∨ outcome i = .other data})
    {j : Nat} (stops : StopsAt done outcome plan.totalChunks j) {content : Bytes} {w : World β}
    (part : w.part = some content) (ok : up w.broker)
    (loads : loadProgress w.progress plan.transferIdHex = .ok (indexList done)) :
    ∃ e all progress b, (outcome j).raised j = some e ∧
      chunkLoop P broker plan (List.range plan.totalChunks) (indexList done) w =
        (.error e, { w with
          part := some (assemble 0 chunkSize file ((List.range j).filter (· ∉ done)) content)
          progress := progress
          broker := b }) ∧
      loadProgress progress plan.transferIdHex = .ok (indexList all) ∧ ∀ i, i ∈ all ↔ i ∈ done ∨ i < j := by
  have fetched : ∀ i ∈ List.range j, i ∉ done → ∀ w : World β, up w.broker → ∃ b, up b ∧
      fetchChunk P broker plan i w = (.ok (chunk chunkSize i file), { w with broker := b }) := by
    intro i member new
    have below := List.mem_range.mp member
    have correct := (stops.before i below).resolve_left new
    exact fetchChunk_correct assigned describes (below.trans stops.below) correct
  obtain ⟨indices, progress, b, up', loop, members, kept, names⟩ :=
    chunkLoop_fetched done List.nodup_range fetched part ok
  have new : ¬ Json.contains (.number (j : Int)) (indexList indices) = true := by
    rw [contains_indexList, members, List.mem_range]
    simp [stops.new]
  obtain ⟨e, b', raised, fetch⟩ := fetchChunk_lost assigned describes collision_free stops.below stops.lost
    { w with
      part := some (assemble 0 chunkSize file ((List.range j).filter (· ∉ done)) content)
      progress := progress
      broker := b } up'
  obtain ⟨rest, split⟩ := range_split stops.below
  have stopped : chunkLoop P broker plan (List.range plan.totalChunks) (indexList done) w =
      (.error e, { w with
        part := some (assemble 0 chunkSize file ((List.range j).filter (· ∉ done)) content)
        progress := progress
        broker := b' }) := by
    rw [split, chunkLoop_append]
    apply (Prog.bind_ok loop _).trans
    rw [chunkLoop, if_neg new]
    exact Prog.bind_error fetch _
  -- nothing is written when every chunk before it was done
  by_cases all_done : ∀ i ∈ List.range j, i ∈ done
  · refine ⟨e, done, progress, b', raised, stopped, by rw [kept all_done, loads], fun i => ?_⟩
    constructor
    · exact .inl
    · rintro (old | below)
      · exact old
      · exact all_done i (List.mem_range.mpr below)
  · push Not at all_done
    obtain ⟨all, loads', same⟩ := (names all_done).load
    refine ⟨e, all, progress, b', raised, stopped, loads', fun i => ?_⟩
    rw [same, members, List.mem_range, or_comm]

/-- With nothing to miss the loop leaves the file. -/
theorem chunkLoop_fills (got : ∀ i < plan.totalChunks, i ∈ done ∨ outcome i = .correct) {content : Bytes}
    {w : World β} (part : w.part = some content) (ok : up w.broker) (short : content.length ≤ file.length)
    (held : ∀ i ∈ done, HoldsAt content (i * chunkSize) (chunk chunkSize i file)) :
    ∃ all progress b, chunkLoop P broker plan (List.range plan.totalChunks) (indexList done) w =
      (.ok (indexList all), { w with part := some file, progress := progress, broker := b }) := by
  have fetched : ∀ i ∈ List.range plan.totalChunks, i ∉ done → ∀ w : World β, up w.broker → ∃ b, up b ∧
      fetchChunk P broker plan i w = (.ok (chunk chunkSize i file), { w with broker := b }) := by
    intro i member new
    have below := List.mem_range.mp member
    exact fetchChunk_correct assigned describes below ((got i below).resolve_left new)
  obtain ⟨all, progress, b, _, loop, _⟩ := chunkLoop_fetched done List.nodup_range fetched part ok
  have filled : assemble 0 chunkSize file ((List.range plan.totalChunks).filter (· ∉ done)) content = file := by
    refine assemble_complete 0 chunkSize_pos file content _ (fun i member => ?_) short
      fun i inside written => ?_
    · have below := List.mem_range.mp (List.mem_of_mem_filter member)
      rw [describes.covers] at below
      exact (lt_chunkCount chunkSize_pos).mp below
    · have below : i < plan.totalChunks := by
        rw [describes.covers]
        exact (lt_chunkCount chunkSize_pos).mpr inside
      exact held i (by simpa [below] using written)
  rw [filled] at loop
  exact ⟨all, progress, b, loop⟩

end Runs

end SecureTransfer.ApproachB
