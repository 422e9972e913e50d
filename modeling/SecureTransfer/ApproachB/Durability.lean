import SecureTransfer.Library.WriteBuffer
import SecureTransfer.ApproachB.Recovery

/-! # Checkpoints and the write buffer

The chunk loop of `receive` step by step: the seek to a chunk flushes `.part`, the chunk goes
into its buffer or is written through, the file is flushed every 64 chunks, and the progress
file that lists the chunk is renamed into place. A kill may come before any step.
-/

namespace SecureTransfer.ApproachB

open Library

def fsyncEveryChunks : Nat := 64

/-- Where the loop stands. -/
inductive LoopPoint where
  | next (todo : List Nat)
  | writing (index : Nat) (todo : List Nat)
  | stored (todo : List Nat)
  | synced (todo : List Nat)
  | closed (result : Except Raised (List Json))

def LoopPoint.todo : LoopPoint → List Nat
  | .next todo | .stored todo | .synced todo => todo
  | .writing index todo => index :: todo
  | .closed _ => []

/-- The loop with `.part` open as `file`. The other files and the broker are in `world`, and the
    buffer of `file` holds `capacity` bytes in what follows. -/
structure OpenLoop (β : Type) where
  file : BufferedFile UInt8
  world : World β
  done : List Json
  point : LoopPoint

namespace OpenLoop

variable {P : Primitives} {β : Type}

def start (done : List Json) (todo : List Nat) (w : World β) : OpenLoop β where
  file := ⟨w.part.getD [], []⟩
  world := w
  done := done
  point := .next todo

/-- The files as the process reads them. -/
def seen (s : OpenLoop β) : World β := { s.world with part := some (s.file.view 0) }

/-- The files as they lie on disk. -/
def onDisk (s : OpenLoop β) : World β := { s.world with part := some s.file.disk }

/-- Leaving the `with` block flushes the file. -/
def close (result : Except Raised (List Json)) (s : OpenLoop β) : OpenLoop β :=
  { s with file := s.file.flush 0, point := .closed result }

/-- `.part` past the test that flushes it. -/
def synced (s : OpenLoop β) : BufferedFile UInt8 :=
  if s.done.length % fsyncEveryChunks = 0 then s.file.flush 0 else s.file

def step (P : Primitives) (capacity : Nat) (broker : Broker β) (plan : Plan) (s : OpenLoop β) : Option (OpenLoop β) :=
  match s.point with
  | .next [] => some (s.close (.ok s.done))
  | .next (index :: rest) =>
      if Json.contains (.number (index : Int)) s.done then some { s with point := .next rest }
      else
        match fetchChunk P broker plan index s.seen with
        | (.error e, w) => some (close (.error e) { s with world := w })
        | (.ok plain, w) => some { s with
            file := s.file.seekWrite 0 (index * chunkSize) plain
            world := w
            point := .writing index rest }
  | .writing index rest => some { s with
      file := s.file.settle 0 capacity
      done := Json.insert s.done (.int index)
      point := .stored rest }
  | .stored rest => some { s with file := s.synced, point := .synced rest }
  | .synced rest =>
      match saveProgress plan.transferIdHex s.done s.seen with
      | (.error e, w) => some (close (.error e) { s with world := w })
      | (.ok _, w) => some { s with world := w, point := .next rest }
  | .closed _ => none

/-- The steps, one constructor for each way to go on. -/
inductive Moves (P : Primitives) (capacity : Nat) (broker : Broker β) (plan : Plan) (s : OpenLoop β) :
    OpenLoop β → Prop where
  | finish (point : s.point = .next []) : Moves P capacity broker plan s (s.close (.ok s.done))
  | skip {index : Nat} {rest : List Nat} (point : s.point = .next (index :: rest))
      (known : Json.contains (.number (index : Int)) s.done = true) :
      Moves P capacity broker plan s { s with point := .next rest }
  | lose {index : Nat} {rest : List Nat} {e : Raised} {w : World β} (point : s.point = .next (index :: rest))
      (new : ¬ Json.contains (.number (index : Int)) s.done = true)
      (fetch : fetchChunk P broker plan index s.seen = (.error e, w)) :
      Moves P capacity broker plan s (close (.error e) { s with world := w })
  | write {index : Nat} {rest : List Nat} {plain : Bytes} {w : World β} (point : s.point = .next (index :: rest))
      (new : ¬ Json.contains (.number (index : Int)) s.done = true)
      (fetch : fetchChunk P broker plan index s.seen = (.ok plain, w)) :
      Moves P capacity broker plan s { s with
        file := s.file.seekWrite 0 (index * chunkSize) plain
        world := w
        point := .writing index rest }
  | settle {index : Nat} {rest : List Nat} (point : s.point = .writing index rest) :
      Moves P capacity broker plan s { s with
        file := s.file.settle 0 capacity
        done := Json.insert s.done (.int index)
        point := .stored rest }
  | sync {rest : List Nat} (point : s.point = .stored rest) :
      Moves P capacity broker plan s { s with file := s.synced, point := .synced rest }
  | raise {rest : List Nat} {e : Raised} {w : World β} (point : s.point = .synced rest)
      (save : saveProgress plan.transferIdHex s.done s.seen = (.error e, w)) :
      Moves P capacity broker plan s (close (.error e) { s with world := w })
  | save {rest : List Nat} {w : World β} (point : s.point = .synced rest)
      (save : saveProgress plan.transferIdHex s.done s.seen = (.ok (), w)) :
      Moves P capacity broker plan s { s with world := w, point := .next rest }

/-- Any number of steps. -/
def Reaches (P : Primitives) (capacity : Nat) (broker : Broker β) (plan : Plan) : OpenLoop β → OpenLoop β → Prop :=
  Relation.ReflTransGen fun a b => a.step P capacity broker plan = some b

/-- What a kill may leave. -/
def Killed (s : OpenLoop β) (disk : Disk) : Prop :=
  ∃ left, s.file.Survives 0 left ∧ disk = { s.world.toDisk with part := some left }

end OpenLoop

section Claims

variable {P : Primitives} {β : Type} (t : Transfer P)

/-- Every chunk that the progress file lists is in `.part`. -/
def InPlace (disk : Disk) : Prop :=
  ∀ done, loadProgress disk.progress t.hexId = .ok done →
    ∀ i : Nat, Json.contains (.number (i : Int)) done = true →
    ∃ content, disk.part = some content ∧ HoldsAt content (i * chunkSize) (t.plain i)

/-- Whatever a kill leaves, nothing is listed that is not in `.part`. -/
def OpenLoop.Durable (s : OpenLoop β) : Prop := ∀ disk, s.Killed disk → InPlace t disk

/-- A chunk that the next step writes is flushed before it is listed, or longer than the buffer, or
    on disk as soon as the seek has flushed the file. -/
def OpenLoop.StoresSafely (capacity : Nat) (broker : Broker β) (s : OpenLoop β) : Prop :=
  ∀ index rest plain w, s.point = .next (index :: rest) → ¬ Json.contains (.number (index : Int)) s.done = true →
    fetchChunk P broker t.plan index s.seen = (.ok plain, w) →
    (s.done.length + 1) % fsyncEveryChunks = 0 ∨ capacity < (t.plain index).length ∨
      HoldsAt (s.file.view 0) (index * chunkSize) (t.plain index)

end Claims

variable {P : Primitives} {β : Type} {capacity : Nat} {broker : Broker β} {plan : Plan} {t : Transfer P}

/-! ## The steps make up the loop -/

theorem saveProgress_part {transferIdHex : String} {done : List Json} {w w' : World β} {r : Except Raised Unit}
    (run : saveProgress transferIdHex done w = (r, w')) : w'.part = w.part := by
  rcases python_bind run with ⟨_, _, _, rfl⟩ | ⟨_, _, run⟩
  · rfl
  · cases run
    rfl

namespace OpenLoop

theorem step_iff {s s' : OpenLoop β} : s.step P capacity broker plan = some s' ↔ Moves P capacity broker plan s s' := by
  constructor
  · intro h
    unfold step at h
    split at h
    case h_1 point =>
      cases h
      exact .finish point
    case h_2 index rest point =>
      split at h
      · rename_i known
        cases h
        exact .skip point known
      · rename_i new
        split at h
        all_goals
          rename_i fetch
          cases h
        · exact .lose point new fetch
        · exact .write point new fetch
    case h_3 index rest point =>
      cases h
      exact .settle point
    case h_4 rest point =>
      cases h
      exact .sync point
    case h_5 rest point =>
      split at h
      all_goals
        rename_i saved
        cases h
      · exact .raise point saved
      · exact .save point saved
    case h_6 => cases h
  · intro h
    cases h with
    | finish point => simp only [step, point]
    | skip point known => simp only [step, point, if_pos known]
    | lose point new fetch | write point new fetch => simp only [step, point, if_neg new, fetch]
    | settle point | sync point => simp only [step, point]
    | raise point save | save point save => simp only [step, point, save]

theorem seen_eq {s : OpenLoop β} {w : World β} (part : w.part = s.seen.part) :
    seen { s with world := w } = w := by
  cases w with
  | mk disk b =>
      cases disk
      cases part
      rfl

theorem synced_view (s : OpenLoop β) : s.synced.view 0 = s.file.view 0 := by
  unfold synced
  split
  · exact BufferedFile.view_flush ..
  · rfl

/-- Run to its end, the loop leaves the files that `chunkLoop` does. -/
theorem steps_chunkLoop {s : OpenLoop β} {todo : List Nat} (point : s.point = .next todo)
    {r : Except Raised (List Json)} {w : World β}
    (run : chunkLoop P broker plan todo s.done s.seen = (r, w)) :
    ∃ s', Reaches P capacity broker plan s s' ∧ s'.point = .closed r ∧ s'.onDisk = w := by
  induction todo generalizing s with
  | nil =>
      cases run
      exact ⟨_, .single (step_iff.mpr (.finish point)), rfl, rfl⟩
  | cons index rest ih =>
      rw [chunkLoop] at run
      by_cases known : Json.contains (.number (index : Int)) s.done = true
      · rw [if_pos known] at run
        obtain ⟨s', steps, ended, same⟩ := ih (s := { s with point := .next rest }) rfl run
        exact ⟨s', .head (step_iff.mpr (.skip point known)) steps, ended, same⟩
      · rw [if_neg known] at run
        rcases Prog.bind_cases run with ⟨e, fetch, rfl⟩ | ⟨plain, w₁, fetch, run⟩
        · have part : w.part = s.seen.part := congrArg Disk.part ((fetchChunk_sameDisk plan index).run fetch)
          exact ⟨_, .single (step_iff.mpr (.lose point known fetch)), rfl, seen_eq part⟩
        · have part : w₁.part = s.seen.part := congrArg Disk.part ((fetchChunk_sameDisk plan index).run fetch)
          let s₀ : OpenLoop β := { s with
            file := s.file.seekWrite 0 (index * chunkSize) plain
            world := w₁
            point := .writing index rest }
          let s₁ : OpenLoop β := { s₀ with
            file := s₀.file.settle 0 capacity
            done := Json.insert s.done (.int index)
            point := .stored rest }
          let s₂ : OpenLoop β := { s₁ with file := s₁.synced, point := .synced rest }
          have stored : s₂.seen = { w₁ with part := w₁.part.map (writeAt 0 (index * chunkSize) plain) } := by
            rw [part]
            simp only [seen, s₂, synced_view, s₁, s₀, BufferedFile.view_settle, BufferedFile.view_seekWrite,
              Option.map_some]
          have before : Reaches P capacity broker plan s s₂ :=
            .head (step_iff.mpr (.write point known fetch)) (.head (step_iff.mpr (.settle rfl))
              (.single (step_iff.mpr (.sync rfl))))
          cases saved : saveProgress plan.transferIdHex s₂.done s₂.seen with
          | mk result w₂ =>
              have part₂ : w₂.part = s₂.seen.part := saveProgress_part saved
              have written := saved
              rw [stored] at written
              cases result with
              | error e =>
                  have failed : storeChunk plan index plain s.done w₁ = (.error e, w₂) :=
                    (Prog.bind_ok (Prog.update_run _ _) _).trans (Prog.bind_error written _)
                  rw [Prog.bind_error failed] at run
                  cases run
                  exact ⟨_, before.tail (step_iff.mpr (.raise rfl saved)), rfl, seen_eq part₂⟩
              | ok _ =>
                  have kept : storeChunk plan index plain s.done w₁ = (.ok s₂.done, w₂) :=
                    (Prog.bind_ok (Prog.update_run _ _) _).trans (Prog.bind_ok written _)
                  rw [Prog.bind_ok kept] at run
                  let s₃ : OpenLoop β := { s₂ with world := w₂, point := .next rest }
                  have same : s₃.seen = w₂ := seen_eq part₂
                  rw [← same] at run
                  obtain ⟨s', steps, ended, left⟩ := ih (s := s₃) rfl run
                  exact ⟨s', (before.tail (step_iff.mpr (.save rfl saved))).trans steps, ended, left⟩

end OpenLoop

/-! ## What is accepted -/

/-- Without a collision the chunks that are accepted are those of the transfer. -/
theorem fetchChunk_genuine (opens : P.Opens)
    (collision_free : Set.InjOn P.sha256.digest {data | ∃ i < t.total,
      data = t.ciphertext i ∨ ∃ b b', broker.get (chunkKey t.hexId i) b = (.ok (some data), b')})
    {i : Nat} (inside : i < t.total) {w w' : World β} {plain : Bytes}
    (run : fetchChunk P broker t.plan i w = (.ok plain, w')) : plain = t.plain i := by
  obtain ⟨ct, checked, b, reply⟩ := fetchChunk_ok run
  obtain ⟨record, found, digest, _⟩ := checked.record
  obtain ⟨_, rfl⟩ := findRecord_some _ found
  have recorded : (t.loadedRecord i).item "ciphertext_sha256" = .ok (.str (P.hexDigest (t.ciphertext i))) :=
    t.record_item "ciphertext_sha256" i rfl
  rw [recorded] at digest
  have hashed : P.hexDigest (t.ciphertext i) = P.hexDigest ct := Json.str.inj (Except.ok.inj digest)
  have same := collision_free ⟨i, inside, .inl rfl⟩ ⟨i, inside, .inr ⟨_, b, reply⟩⟩ (hex_injective hashed)
  obtain ⟨nonce, aad, counter, bound, opened⟩ := checked.opens
  obtain ⟨_, rfl⟩ := chunkNonce_ok counter
  obtain ⟨_, _, rfl⟩ := chunkAad_ok bound
  have original : P.decrypt t.session.chunkKey (Transfer.nonce i) (t.ciphertext i) (t.aad i) =
      some (t.plain i) := opens _ _ _ _
  rw [same] at original
  exact Option.some.inj (opened.symm.trans original)

/-- What is accepted is as long as the chunk of the transfer. -/
theorem fetchChunk_length {i : Nat} {w w' : World β} {plain : Bytes}
    (run : fetchChunk P broker t.plan i w = (.ok plain, w')) : plain.length = (t.plain i).length := by
  obtain ⟨_, checked, _⟩ := fetchChunk_ok run
  obtain ⟨record, found, _, length, item, sized⟩ := checked.record
  obtain ⟨_, rfl⟩ := findRecord_some _ found
  have recorded : (t.loadedRecord i).item "plaintext_len" = .ok (.int (t.plain i).length) :=
    t.record_item "plaintext_len" i rfl
  rw [recorded] at item
  cases item
  exact_mod_cast ((Json.eqInt_int _ _).mp sized).symm

/-! ## What the steps keep -/

namespace OpenLoop

/-- What is on disk once the next flush that is due was made. -/
def settled (s : OpenLoop β) : Bytes :=
  match s.point with
  | .stored _ => s.synced.disk
  | _ => s.file.disk

variable (t capacity)

/-- The chunks that count as done are on disk, or will be before they are listed. -/
structure Kept (s : OpenLoop β) : Prop where
  inside : ∀ i ∈ s.point.todo, i < t.total
  pending : ∀ write ∈ s.file.pending, ∃ i, write = (i * chunkSize, t.plain i)
  done : ∃ indices, s.done = indexList indices ∧
    ∀ i ∈ indices, HoldsAt s.settled (i * chunkSize) (t.plain i)
  listed : ∀ done, loadProgress s.world.progress t.hexId = .ok done →
    ∀ i : Nat, Json.contains (.number (i : Int)) done = true → HoldsAt s.file.disk (i * chunkSize) (t.plain i)
  writing : ∀ index rest, s.point = .writing index rest →
    s.file.pending = [(index * chunkSize, t.plain index)] ∧ ¬ Json.contains (.number (index : Int)) s.done = true ∧
      ((s.done.length + 1) % fsyncEveryChunks = 0 ∨ capacity < (t.plain index).length ∨
        HoldsAt s.file.disk (index * chunkSize) (t.plain index))

variable {t capacity}

theorem Kept.durable {s : OpenLoop β} (kept : s.Kept capacity t) : s.Durable t := by
  rintro disk ⟨left, ⟨arrived, torn, rfl⟩, rfl⟩ done loads i listed
  exact ⟨_, rfl, torn.holdsAt_chunk 0 kept.pending (kept.listed done loads i listed)⟩

/-- A flush keeps what is on disk. -/
theorem Kept.view {s : OpenLoop β} (kept : s.Kept capacity t) {i : Nat}
    (held : HoldsAt s.file.disk (i * chunkSize) (t.plain i)) :
    HoldsAt (s.file.view 0) (i * chunkSize) (t.plain i) :=
  (Torn.all s.file.pending).holdsAt_chunk 0 kept.pending held

theorem Kept.close {s : OpenLoop β} (kept : s.Kept capacity t) {w : World β} (progress : w.progress = s.world.progress)
    (settled : s.settled = s.file.disk) (result : Except Raised (List Json)) :
    (OpenLoop.close result { s with world := w }).Kept capacity t where
  inside i member := nomatch member
  pending write member := nomatch member
  done := by
    obtain ⟨indices, same, held⟩ := kept.done
    refine ⟨indices, same, fun i member => kept.view ?_⟩
    rw [← settled]
    exact held i member
  listed done loads i member := by
    refine kept.view (kept.listed done ?_ i member)
    rw [← progress]
    exact loads
  writing index rest point := nomatch point

/-- A chunk that is new to the set adds one to its size. -/
theorem insert_new {done : List Json} {indices : List Nat} {index : Nat} (same : done = indexList indices)
    (new : ¬ Json.contains (.number (index : Int)) done = true) :
    Json.insert done (.int index) = indexList (indices ++ [index]) ∧
      (Json.insert done (.int index)).length = done.length + 1 := by
  subst same
  rw [contains_indexList] at new
  have inserted : Json.insert (indexList indices) (.int index) = indexList (indices ++ [index]) :=
    (Json.insert_map index_keyed number_injective indices index).trans (by rw [if_neg new]; rfl)
  rw [inserted]
  exact ⟨rfl, by simp [indexList]⟩

/-- What is on disk past the flush, whether it is due or not. -/
theorem Kept.synced {s : OpenLoop β} (kept : s.Kept capacity t) {i : Nat}
    (held : HoldsAt s.file.disk (i * chunkSize) (t.plain i)) :
    HoldsAt s.synced.disk (i * chunkSize) (t.plain i) := by
  unfold OpenLoop.synced
  split
  · exact kept.view held
  · exact held

/-- What is on disk past the write, whether it went through or not. -/
theorem Kept.settle {s : OpenLoop β} (kept : s.Kept capacity t) {i : Nat}
    (held : HoldsAt s.file.disk (i * chunkSize) (t.plain i)) :
    HoldsAt (s.file.settle 0 capacity).disk (i * chunkSize) (t.plain i) := by
  unfold BufferedFile.settle
  split
  · exact kept.view held
  · exact held

/-- The seek flushes, and a chunk of the transfer goes into the buffer. -/
theorem Kept.write {s : OpenLoop β} (kept : s.Kept capacity t) {index : Nat} {rest : List Nat} {w : World β}
    (point : s.point = .next (index :: rest)) (new : ¬ Json.contains (.number (index : Int)) s.done = true)
    (progress : w.progress = s.seen.progress)
    (safe : (s.done.length + 1) % fsyncEveryChunks = 0 ∨ capacity < (t.plain index).length ∨
      HoldsAt (s.file.view 0) (index * chunkSize) (t.plain index)) :
    OpenLoop.Kept capacity t { s with
      file := s.file.seekWrite 0 (index * chunkSize) (t.plain index)
      world := w
      point := .writing index rest } := by
  obtain ⟨indices, same, held⟩ := kept.done
  simp only [settled, point] at held
  constructor
  case inside => exact fun i member => kept.inside i (by rw [point]; exact member)
  case pending =>
    intro write member
    exact ⟨index, List.mem_singleton.mp member⟩
  case done => exact ⟨indices, same, fun i member => kept.view (held i member)⟩
  case listed =>
    intro done loads i listed
    rw [progress] at loads
    exact kept.view (kept.listed done loads i listed)
  case writing =>
    intro index' rest' there
    cases there
    exact ⟨rfl, new, safe⟩

/-- The chunk in the buffer counts as done. -/
theorem Kept.counts {s : OpenLoop β} (kept : s.Kept capacity t) {index : Nat} {rest : List Nat}
    (point : s.point = .writing index rest) :
    OpenLoop.Kept capacity t { s with
      file := s.file.settle 0 capacity
      done := Json.insert s.done (.int index)
      point := .stored rest } := by
  obtain ⟨indices, same, held⟩ := kept.done
  simp only [OpenLoop.settled, point] at held
  obtain ⟨pending, new, safe⟩ := kept.writing index rest point
  obtain ⟨inserted, size⟩ := insert_new same new
  have arrives : HoldsAt (s.file.view 0) (index * chunkSize) (t.plain index) := by
    rw [BufferedFile.view_single 0 s.file pending]
    exact holdsAt_writeAt 0 _ _ _
  constructor
  case inside => exact fun i member => kept.inside i (by rw [point]; exact List.mem_cons_of_mem index member)
  case pending =>
    intro write member
    simp only [BufferedFile.settle] at member
    split at member
    · cases member
    · exact kept.pending write member
  case done =>
    refine ⟨indices ++ [index], inserted, fun i member => ?_⟩
    simp only [OpenLoop.settled, OpenLoop.synced, size]
    split
    · -- the flush is due, and writes the new chunk
      simp only [BufferedFile.flush, BufferedFile.view_settle]
      rcases List.mem_append.mp member with before | here
      · exact kept.view (held i before)
      · rw [List.mem_singleton.mp here]
        exact arrives
    · rename_i not_due
      rcases List.mem_append.mp member with before | here
      · exact kept.settle (held i before)
      · rw [List.mem_singleton.mp here]
        rcases safe.resolve_left not_due with long | there
        · -- it is written through
          rw [BufferedFile.settle_single 0 s.file capacity pending, if_pos long]
          exact arrives
        · exact kept.settle there
  case listed => exact fun done loads i listed => kept.settle (kept.listed done loads i listed)
  case writing =>
    intro index' rest' there
    cases there

theorem Kept.sync {s : OpenLoop β} (kept : s.Kept capacity t) {rest : List Nat}
    (point : s.point = .stored rest) :
    OpenLoop.Kept capacity t { s with file := s.synced, point := .synced rest } := by
  obtain ⟨indices, same, held⟩ := kept.done
  simp only [settled, point] at held
  constructor
  case inside => exact fun i member => kept.inside i (by rw [point]; exact member)
  case pending =>
    intro write member
    simp only [OpenLoop.synced] at member
    split at member
    · cases member
    · exact kept.pending write member
  case done => exact ⟨indices, same, held⟩
  case listed => exact fun done loads i listed => kept.synced (kept.listed done loads i listed)
  case writing => exact nofun

/-- The progress file comes to list what is on disk by now. -/
theorem Kept.save {s : OpenLoop β} (kept : s.Kept capacity t) {rest : List Nat} {w : World β}
    (point : s.point = .synced rest) (save : saveProgress t.hexId s.done s.seen = (.ok (), w)) :
    OpenLoop.Kept capacity t { s with world := w, point := .next rest } := by
  obtain ⟨indices, same, held⟩ := kept.done
  rw [same] at save
  obtain ⟨progress, saved, names⟩ := saveProgress_run t.hexId indices s.seen
  rw [saved] at save
  cases save
  simp only [settled, point] at held
  constructor
  case inside => exact fun i member => kept.inside i (by rw [point]; exact member)
  case pending => exact kept.pending
  case done => exact ⟨indices, same, held⟩
  case listed =>
    intro done loads i listed
    obtain ⟨all, reloads, members⟩ := names.load
    rw [reloads] at loads
    cases loads
    exact held i ((members i).mp (contains_indexList.mp listed))
  case writing => exact nofun

theorem Kept.moves (opens : P.Opens)
    (collision_free : Set.InjOn P.sha256.digest {data | ∃ i < t.total,
      data = t.ciphertext i ∨ ∃ b b', broker.get (chunkKey t.hexId i) b = (.ok (some data), b')})
    {s s' : OpenLoop β} (kept : s.Kept capacity t) (safely : s.StoresSafely t capacity broker)
    (moves : Moves P capacity broker t.plan s s') :
    s'.Kept capacity t := by
  cases moves with
  | finish point =>
      refine kept.close rfl ?_ _
      simp only [settled, point]
  | @skip index rest point known =>
      have later : ∀ i ∈ rest, i < t.total := fun i member =>
        kept.inside i (by rw [point]; exact List.mem_cons_of_mem index member)
      obtain ⟨indices, same, held⟩ := kept.done
      simp only [settled, point] at held
      exact ⟨later, kept.pending, ⟨indices, same, held⟩, kept.listed, nofun⟩
  | @lose index rest e w point new fetch =>
      have progress : w.progress = s.seen.progress :=
        congrArg Disk.progress ((fetchChunk_sameDisk t.plan index).run fetch)
      refine kept.close progress ?_ _
      simp only [settled, point]
  | @write index rest plain w point new fetch =>
      have inside : index < t.total := kept.inside index (by rw [point]; exact List.mem_cons_self)
      have progress : w.progress = s.seen.progress :=
        congrArg Disk.progress ((fetchChunk_sameDisk t.plan index).run fetch)
      have genuine := fetchChunk_genuine opens collision_free inside fetch
      have safe := safely index rest plain w point new fetch
      subst genuine
      exact kept.write point new progress safe
  | settle point => exact kept.counts point
  | sync point => exact kept.sync point
  | raise point save =>
      obtain ⟨indices, same, _⟩ := kept.done
      rw [same] at save
      obtain ⟨_, saved, _⟩ := saveProgress_run t.hexId indices s.seen
      rw [show t.plan.transferIdHex = t.hexId from rfl, saved] at save
      cases save
  | save point save => exact kept.save point save

/-- The set of chunks done is one of indices, whatever the broker answers. -/
theorem indices_moves {s s' : OpenLoop β} (indexed : ∃ indices, s.done = indexList indices)
    (moves : Moves P capacity broker plan s s') : ∃ indices, s'.done = indexList indices := by
  cases moves with
  | @settle index rest point =>
      obtain ⟨indices, same⟩ := indexed
      refine ⟨if index ∈ indices then indices else indices ++ [index], ?_⟩
      simp only [same]
      exact (Json.insert_map index_keyed number_injective indices index).trans (apply_ite indexList _ _ _).symm
  | _ => exact indexed

/-- A chunk that is written is listed three steps later, and is in the buffer until then if it fits
    and the flush is not due. -/
theorem storesSafely_of_durable {s : OpenLoop β} (indexed : ∃ indices, s.done = indexList indices)
    (durable : ∀ s', Reaches P capacity broker t.plan s s' → s'.Durable t) :
    s.StoresSafely t capacity broker := by
  intro index rest plain w point new fetch
  obtain ⟨indices, same⟩ := indexed
  obtain ⟨inserted, size⟩ := insert_new same new
  by_contra exposed
  rw [not_or, not_or] at exposed
  obtain ⟨not_due, fits, absent⟩ := exposed
  let s₀ : OpenLoop β := { s with
    file := s.file.seekWrite 0 (index * chunkSize) plain
    world := w
    point := .writing index rest }
  let s₁ : OpenLoop β := { s₀ with
    file := s₀.file.settle 0 capacity
    done := Json.insert s.done (.int index)
    point := .stored rest }
  have buffered : s₁.file = s₀.file := by
    simp only [s₁]
    rw [BufferedFile.settle_single 0 s₀.file capacity rfl, fetchChunk_length fetch, if_neg fits]
  have unflushed : s₁.synced = s₀.file := by
    rw [OpenLoop.synced, size, if_neg not_due, buffered]
  let s₂ : OpenLoop β := { s₁ with file := s₁.synced, point := .synced rest }
  obtain ⟨progress, saved, names⟩ := saveProgress_run t.hexId (indices ++ [index]) s₂.seen
  rw [← inserted] at saved
  let s₃ : OpenLoop β := { s₂ with world := { s₂.seen with progress := progress }, point := .next rest }
  have steps : Reaches P capacity broker t.plan s s₃ :=
    .tail (.tail (.tail (.single (step_iff.mpr (.write point new fetch))) (step_iff.mpr (.settle rfl)))
      (step_iff.mpr (.sync rfl))) (step_iff.mpr (.save rfl saved))
  -- the kill comes before anything of the buffer reaches the disk
  obtain ⟨all, loads, members⟩ := names.load
  have listed : Json.contains (.number (index : Int)) (indexList all) = true :=
    contains_indexList.mpr ((members index).mpr (List.mem_append_right _ (List.mem_singleton_self index)))
  obtain ⟨content, here, held⟩ := durable s₃ steps _ ⟨_, s₃.file.survives_disk 0, rfl⟩ _ loads index listed
  cases here
  have disk : s₃.file.disk = s.file.view 0 := congrArg BufferedFile.disk unflushed
  rw [disk] at held
  exact absent held

/-! ## Runs of the loop -/

/-- What `resume` hands to the loop: its set of chunks is the listed one, or empty. -/
theorem resume_start {w₀ w : World β} {done : List Json} (lists : ListsChunks w₀.progress t.hexId)
    (resumed : resume t.hexId w₀ = (.ok done, w)) :
    ∃ indices all content, done = indexList indices ∧ w.part = some content ∧
      loadProgress w.progress t.hexId = .ok (indexList all) ∧ ∀ i ∈ indices, i ∈ all := by
  rw [resume_run] at resumed
  cases loads : loadProgress w₀.progress t.hexId with
  | error e =>
      rw [loads] at resumed
      cases resumed
  | ok listed =>
      obtain ⟨all, rfl⟩ := lists listed loads
      rw [loads] at resumed
      simp only at resumed
      split at resumed
      · cases resumed
        exact ⟨[], all, [], rfl, rfl, loads, nofun⟩
      · rename_i some_done
        cases resumed
        rw [not_or] at some_done
        obtain ⟨content, part⟩ := Option.ne_none_iff_exists'.mp some_done.2
        exact ⟨all, all, content, rfl, part, loads, fun i member => member⟩

theorem indexed_reaches {s s' : OpenLoop β} (indexed : ∃ indices, s.done = indexList indices)
    (steps : Reaches P capacity broker plan s s') : ∃ indices, s'.done = indexList indices := by
  induction steps with
  | refl => exact indexed
  | tail _ last ih => exact indices_moves ih (step_iff.mp last)

/-- While every chunk is stored safely, what counts as done is kept on disk. -/
theorem Kept.reaches (opens : P.Opens)
    (collision_free : Set.InjOn P.sha256.digest {data | ∃ i < t.total,
      data = t.ciphertext i ∨ ∃ b b', broker.get (chunkKey t.hexId i) b = (.ok (some data), b')})
    {s s' : OpenLoop β} (kept : s.Kept capacity t)
    (safely : ∀ s', Reaches P capacity broker t.plan s s' → s'.StoresSafely t capacity broker)
    (steps : Reaches P capacity broker t.plan s s') : s'.Kept capacity t := by
  induction steps with
  | refl => exact kept
  | tail before last ih => exact ih.moves opens collision_free (safely _ before) (step_iff.mp last)

theorem fetchChunk_inside {i : Nat} {w w' : World β} {plain : Bytes}
    (run : fetchChunk P broker t.plan i w = (.ok plain, w')) : i < t.total := by
  obtain ⟨_, checked, _⟩ := fetchChunk_ok run
  obtain ⟨record, found, _⟩ := checked.record
  exact List.mem_range.mp (findRecord_some _ found).1

theorem storesSafely_of_long (long : ∀ i < t.total, capacity < (t.plain i).length) (s : OpenLoop β) :
    s.StoresSafely t capacity broker := fun index _ _ _ _ _ fetch =>
  .inr (.inl (long index (fetchChunk_inside fetch)))

/-- With a buffer that is shorter than a chunk only the last chunk can be listed too early. -/
theorem storesSafely_iff_last (whole : t.Whole) (small : capacity < chunkSize) {s : OpenLoop β} :
    s.StoresSafely t capacity broker ↔
      ∀ index rest plain w, index + 1 = t.total → s.point = .next (index :: rest) →
        ¬ Json.contains (.number (index : Int)) s.done = true →
        fetchChunk P broker t.plan index s.seen = (.ok plain, w) →
        (s.done.length + 1) % fsyncEveryChunks = 0 ∨ capacity < (t.plain index).length ∨
          HoldsAt (s.file.view 0) (index * chunkSize) (t.plain index) := by
  refine ⟨fun safely index rest plain w _ => safely index rest plain w, ?_⟩
  intro last index rest plain w point new fetch
  by_cases at_end : index + 1 = t.total
  · exact last index rest plain w at_end point new fetch
  · have inside : index + 1 < t.total := lt_of_le_of_ne (fetchChunk_inside fetch) at_end
    have full : (t.plain index).length = chunkSize := by
      have reaches := whole.lt_total.mp inside
      rw [Nat.add_mul, Nat.one_mul] at reaches
      rw [Transfer.plain, chunk_length]
      omega
    exact .inr (.inl (full ▸ small))

end OpenLoop

/-! ## A buffer of 8 KiB -/

/-- `io.DEFAULT_BUFFER_SIZE`. -/
def defaultBufferSize : Nat := 8192

/-- A short first chunk of a run from nothing is listed while it may still be in the buffer. -/
theorem first_chunk_exposed (opens : P.Opens) (whole : t.Whole) {w : World β} {b : β} (inside : 0 < t.total)
    (short : (t.plain 0).length ≤ capacity)
    (reply : broker.get (chunkKey t.hexId 0) w.broker = (.ok (some (t.ciphertext 0)), b))
    (nothing : w.part = some []) :
    ¬ (OpenLoop.start [] (List.range t.total) w).StoresSafely t capacity broker := by
  intro safely
  obtain ⟨rest, split⟩ := range_split inside
  let s := OpenLoop.start [] (List.range t.total) w
  have fetch : fetchChunk P broker t.plan 0 s.seen = (.ok (t.plain 0), { s.seen with broker := b }) :=
    fetchChunk_served opens whole inside reply
  rcases safely 0 rest (t.plain 0) _ (congrArg LoopPoint.next split) nofun fetch with due | long | held
  · exact absurd (show (0 + 1) % fsyncEveryChunks = 0 from due) (by decide)
  · exact absurd long (not_lt.mpr short)
  · have empty : (OpenLoop.start [] (List.range t.total) w).file.view 0 = [] := by
      simp only [OpenLoop.start, nothing, Option.getD_some]
      rfl
    rw [empty] at held
    have shorter := List.IsPrefix.length_le held
    have some_bytes := List.length_pos_iff.mpr (chunk_ne_nil chunkSize_pos ((whole.lt_total).mp inside))
    rw [List.length_drop, List.length_nil, Nat.zero_sub] at shorter
    exact absurd some_bytes (not_lt.mpr shorter)

/-- A store that alters nothing offers only what `t` is made of. -/
theorem twoMebibytes_collision_free {accepts : Bytes → Bytes → Bool} {t : Transfer (transparent accepts)}
    (file : t.file = twoMebibytes) {store : Storage} (unaltered : Unaltered t (shelf store)) :
    Set.InjOn (transparent accepts).sha256.digest {data | ∃ i < t.total,
      data = t.ciphertext i ∨ ∃ b b', (shelf store).get (chunkKey t.hexId i) b = (.ok (some data), b')} := by
  refine (twoMebibytes_digests file).mono ?_
  rintro data ⟨i, inside, rfl | ⟨b, b', reply⟩⟩
  · exact ⟨i, inside, rfl⟩
  · exact ⟨i, inside, unaltered.chunks i inside b data b' reply⟩

end SecureTransfer.ApproachB
