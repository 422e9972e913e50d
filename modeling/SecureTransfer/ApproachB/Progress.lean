import SecureTransfer.ApproachB.ReceiveRuns
import SecureTransfer.Library.CanonicalJson

/-! # The progress file and the chunk loop

What a progress file written by the receiver says, and what the chunk loop keeps of it
and of the partial file: every listed chunk lies at its place in `.part`.
-/

namespace SecureTransfer.ApproachB

open Library

/-! ## Lists of chunk indices -/

/-- Chunk indices as the receiver keeps them. -/
def indexList (indices : List Nat) : List Json := indices.map fun i : Nat => .int i

theorem index_keyed (i : Nat) : (Json.int i).key = some (.number (i : Int)) := rfl

theorem number_injective : Function.Injective fun i : Nat => Key.number (i : Int) := by
  intro i j same
  have equal : ((i : Int) : Rat) = ((j : Int) : Rat) := Key.number.inj same
  exact_mod_cast equal

theorem contains_indexList {indices : List Nat} {i : Nat} :
    Json.contains (.number (i : Int)) (indexList indices) = true ↔ i ∈ indices :=
  Json.contains_map index_keyed number_injective

theorem sorted_indexList (indices : List Nat) :
    ∃ all, Json.sorted (indexList indices) = .ok (indexList all) ∧ all.Perm indices := by
  obtain ⟨out, sorts⟩ : ∃ out, Json.sorted (indexList indices) = .ok out := by
    refine Json.sorted_numbers fun value member => ?_
    obtain ⟨i, _, rfl⟩ := List.mem_map.mp member
    rfl
  obtain ⟨same, perm⟩ := Json.perm_map Json.natOrZero (fun _ => rfl) (Json.sorted_perm sorts)
  refine ⟨out.map Json.natOrZero, ?_, perm⟩
  rw [sorts]
  exact congrArg Except.ok same

/-! ## The progress file -/

/-- The file names `transferIdHex` and lists the chunks `indices`. -/
def Names (progress : Option Bytes) (transferIdHex : String) (indices : List Nat) : Prop :=
  ∃ listed, progress = some (Json.dumpFile (progressFile transferIdHex (indexList listed))) ∧
    ∀ i, i ∈ listed ↔ i ∈ indices

theorem loadFile_progressFile (transferIdHex : String) (indices : List Nat) :
    Json.loadFile (Json.dumpFile (progressFile transferIdHex (indexList indices))) =
      .ok (some (progressFile transferIdHex (indexList indices))) := by
  apply Json.loadFile_dumpFile
  have items : Json.plainItems (indexList indices) = true := by
    rw [Json.plainItems_eq, List.all_eq_true]
    intro value member
    obtain ⟨i, _, rfl⟩ := List.mem_map.mp member
    rfl
  simp [progressFile, Json.plain, Json.plainMembers, items]

theorem loadProgress_file (named transferIdHex : String) (indices : List Nat) :
    loadProgress (some (Json.dumpFile (progressFile named (indexList indices)))) transferIdHex =
      if named = transferIdHex then Json.setOf (indexList indices) else .ok [] := by
  have id : (progressFile named (indexList indices)).get "transfer_id" = .ok (some (.str named)) := rfl
  have done : (progressFile named (indexList indices)).get "done" =
      .ok (some (.arr (indexList indices))) := rfl
  simp only [loadProgress, loadFile_progressFile, bind, Except.bind, id, Option.any_some, Json.eqStr_str]
  split
  · simp only [done, Option.getD_some, Json.iterate]
  · rfl

theorem Names.load {progress : Option Bytes} {transferIdHex : String} {indices : List Nat}
    (h : Names progress transferIdHex indices) :
    ∃ all, loadProgress progress transferIdHex = .ok (indexList all) ∧ ∀ i, i ∈ all ↔ i ∈ indices := by
  obtain ⟨listed, rfl, same⟩ := h
  obtain ⟨all, set, members⟩ := Json.setOf_map index_keyed number_injective listed
  refine ⟨all, ?_, fun i => (members i).trans (same i)⟩
  rw [loadProgress_file, if_pos rfl]
  exact set

theorem Names.load_other {progress : Option Bytes} {named transferIdHex : String} {indices : List Nat}
    (h : Names progress named indices) (other : named ≠ transferIdHex) :
    loadProgress progress transferIdHex = .ok [] := by
  obtain ⟨listed, rfl, _⟩ := h
  rw [loadProgress_file, if_neg other]

variable {P : Primitives} {β : Type} {broker : Broker β}

theorem saveProgress_run (transferIdHex : String) (indices : List Nat) (w : World β) :
    ∃ progress, saveProgress transferIdHex (indexList indices) w = (.ok (), { w with progress }) ∧
      Names progress transferIdHex indices := by
  obtain ⟨all, sorts, perm⟩ := sorted_indexList indices
  refine ⟨some (Json.dumpFile (progressFile transferIdHex (indexList all))), ?_, all, rfl,
    fun i => perm.mem_iff⟩
  rw [saveProgress, Prog.bind_ok (python_run_ok sorts w)]
  rfl

theorem storeChunk_run (plan : Plan) (index : Nat) (plain : Bytes) (indices : List Nat) (w : World β) :
    ∃ indices' progress, storeChunk plan index plain (indexList indices) w =
        (.ok (indexList indices'),
          { w with part := w.part.map (writeAt 0 (index * chunkSize) plain), progress := progress }) ∧
      Names progress plan.transferIdHex indices' ∧ ∀ i, i ∈ indices' ↔ i = index ∨ i ∈ indices := by
  obtain ⟨indices', inserted, same⟩ := Json.insert_map_mem index_keyed number_injective indices index
  obtain ⟨progress, saved, names⟩ := saveProgress_run plan.transferIdHex indices'
    { w with part := w.part.map (writeAt 0 (index * chunkSize) plain) }
  refine ⟨indices', progress, ?_, names, same⟩
  rw [storeChunk, Prog.bind_ok (Prog.update_run _ _), indexList, inserted]
  exact Prog.bind_ok saved _

/-! ## What the chunk loop keeps -/

/-- `Good i plain` is what a chunk that was stored satisfies, `Short` what the partial file
    does. -/
structure Sound (Good : Nat → Bytes → Prop) (Short : Bytes → Prop) (P : Primitives) (broker : Broker β)
    (plan : Plan) : Prop where
  fetched : ∀ i (w w' : World β) plain, i < plan.totalChunks →
    fetchChunk P broker plan i w = (.ok plain, w') → Good i plain
  small : ∀ i plain, Good i plain → plain.length ≤ chunkSize
  write : ∀ i plain content, Good i plain → Short content →
    Short (writeAt 0 (i * chunkSize) plain content)

/-- Every listed chunk lies at its place. -/
structure Keeps (Good : Nat → Bytes → Prop) (Short : Bytes → Prop) (indices : List Nat)
    (content : Bytes) : Prop where
  chunks : ∀ i ∈ indices, ∃ plain, Good i plain ∧ HoldsAt content (i * chunkSize) plain
  short : Short content

variable {Good : Nat → Bytes → Prop} {Short : Bytes → Prop} {plan : Plan}

theorem Keeps.congr {indices indices' : List Nat} {content : Bytes} (h : Keeps Good Short indices content)
    (same : ∀ i, i ∈ indices' ↔ i ∈ indices) : Keeps Good Short indices' content where
  chunks i member := h.chunks i ((same i).mp member)
  short := h.short

/-- Chunks of at most `chunkSize` bytes do not overlap, so a write keeps the others. -/
theorem Keeps.write (sound : Sound Good Short P broker plan) {indices indices' : List Nat}
    {content plain : Bytes} {index : Nat} (h : Keeps Good Short indices content)
    (good : Good index plain) (same : ∀ i, i ∈ indices' ↔ i = index ∨ i ∈ indices) :
    Keeps Good Short indices' (writeAt 0 (index * chunkSize) plain content) where
  chunks i member := by
    by_cases here : i = index
    · rw [here]
      exact ⟨plain, good, holdsAt_writeAt 0 _ _ _⟩
    · have old : i ∈ indices := by
        rcases (same i).mp member with equal | old
        · exact absurd equal here
        · exact old
      obtain ⟨other, good', held⟩ := h.chunks i old
      have apart := chunks_apart here (sound.small i other good') (sound.small index plain good)
      exact ⟨other, good', held.writeAt_disjoint 0 apart⟩
  short := sound.write index plain content good h.short

/-- The loop stopped at the first chunk it had to fetch. -/
def StopsFirst (P : Primitives) (broker : Broker β) (plan : Plan) (indices todo : List Nat) (e : Raised)
    (w w' : World β) : Prop :=
  ∃ front i rest, todo = front ++ i :: rest ∧ (∀ j ∈ front, j ∈ indices) ∧
    fetchChunk P broker plan i w = (.error e, w')

/-- The loop adds chunks and lists them, or stops before its first one. -/
theorem chunkLoop_keeps (sound : Sound Good Short P broker plan) {todo indices : List Nat}
    (inside : ∀ i ∈ todo, i < plan.totalChunks) {content : Bytes} {w w' : World β}
    {r : Except Raised (List Json)} (part : w.part = some content)
    (keeps : Keeps Good Short indices content)
    (run : chunkLoop P broker plan todo (indexList indices) w = (r, w')) :
    ∃ indices' content', w'.part = some content' ∧ Keeps Good Short indices' content' ∧
      (w'.progress = w.progress ∧ indices' = indices ∧ content' = content ∧
          (∀ e, r = .error e → StopsFirst P broker plan indices todo e w w') ∨
        Names w'.progress plan.transferIdHex indices') ∧
      ∀ done, r = .ok done → done = indexList indices' ∧ ∀ i, i ∈ indices' ↔ i ∈ todo ∨ i ∈ indices := by
  induction todo generalizing indices content w with
  | nil =>
      cases run
      refine ⟨indices, content, part, keeps, .inl ⟨rfl, rfl, rfl, fun e failed => ?_⟩, by simp⟩
      cases failed
  | cons index rest ih =>
      have later := fun i member => inside i (List.mem_cons_of_mem index member)
      unfold chunkLoop at run
      split at run
      · rename_i listed
        have known := contains_indexList.mp listed
        obtain ⟨indices', content', part', keeps', named, whole⟩ := ih later part keeps run
        refine ⟨indices', content', part', keeps', ?_, fun done ok => ?_⟩
        · rcases named with ⟨progress, same, bytes, stops⟩ | names
          · refine .inl ⟨progress, same, bytes, fun e failed => ?_⟩
            obtain ⟨front, i, tail, rfl, before, fetch⟩ := stops e failed
            exact ⟨index :: front, i, tail, rfl, List.forall_mem_cons.mpr ⟨known, before⟩, fetch⟩
          · exact .inr names
        · obtain ⟨same, members⟩ := whole done ok
          refine ⟨same, fun i => ?_⟩
          rw [members i, List.mem_cons]
          grind
      · rcases Prog.bind_cases run with ⟨e, fetch, rfl⟩ | ⟨plain, w₁, fetch, run⟩
        · have disk : w'.toDisk = w.toDisk := (fetchChunk_sameDisk plan index).run fetch
          refine ⟨indices, content, (congrArg Disk.part disk).trans part, keeps,
            .inl ⟨congrArg Disk.progress disk, rfl, rfl, fun e' failed => ?_⟩, by simp⟩
          cases failed
          exact ⟨[], index, rest, rfl, List.forall_mem_nil _, fetch⟩
        · have disk : w₁.toDisk = w.toDisk := (fetchChunk_sameDisk plan index).run fetch
          have part₁ : w₁.part = some content := (congrArg Disk.part disk).trans part
          have good := sound.fetched index w w₁ plain (inside index (List.mem_cons_self ..)) fetch
          obtain ⟨indices₁, progress, stored, names, same⟩ :=
            storeChunk_run plan index plain indices w₁
          rw [Prog.bind_ok stored, part₁, Option.map_some] at run
          obtain ⟨indices', content', part', keeps', named, whole⟩ :=
            ih later rfl (keeps.write sound good same) run
          refine ⟨indices', content', part', keeps', .inr ?_, fun done ok => ?_⟩
          · rcases named with ⟨progress', rfl, _⟩ | named
            · rw [progress']
              exact names
            · exact named
          · obtain ⟨same', members⟩ := whole done ok
            refine ⟨same', fun i => ?_⟩
            rw [members i, same i, List.mem_cons]
            grind

/-- A run from its resume point to whatever ends its download. -/
theorem download_keeps (sound : Sound Good Short P broker plan) {args : Args} {manifest : Json}
    {indices : List Nat} {content : Bytes} {w w₁ w₂ w' : World β} {r : Except Raised (Json × Plan)}
    (prepared : prepare P broker args w = (.ok (manifest, plan), w₁))
    (resumed : resume plan.transferIdHex w₁ = (.ok (indexList indices), w₂))
    (part : w₂.part = some content) (keeps : Keeps Good Short indices content)
    (run : download P broker args w = (r, w')) :
    ∃ indices' content', w'.part = some content' ∧ Keeps Good Short indices' content' ∧
      (w'.progress = w₂.progress ∧ indices' = indices ∧ content' = content ∧
          (∃ e, StopsFirst P broker plan indices (List.range plan.totalChunks) e w₂ w') ∨
        Names w'.progress plan.transferIdHex indices') := by
  have inside : ∀ i ∈ List.range plan.totalChunks, i < plan.totalChunks := fun i => List.mem_range.mp
  rw [download, Prog.bind_ok prepared, Prog.bind_ok resumed] at run
  rcases Prog.bind_cases run with ⟨e, loop, rfl⟩ | ⟨done, w₃, loop, run⟩
  · obtain ⟨indices', content', part', keeps', named, _⟩ := chunkLoop_keeps sound inside part keeps loop
    refine ⟨indices', content', part', keeps', ?_⟩
    rcases named with ⟨progress, same, bytes, stops⟩ | names
    · exact .inl ⟨progress, same, bytes, e, stops e rfl⟩
    · exact .inr names
  · obtain ⟨indices', content', part', keeps', _, whole⟩ := chunkLoop_keeps sound inside part keeps loop
    obtain ⟨rfl, _⟩ := whole done rfl
    obtain ⟨progress, saved, names⟩ := saveProgress_run plan.transferIdHex indices' w₃
    rw [Prog.bind_ok saved] at run
    have disk : w'.toDisk = ({ w₃ with progress := progress } : World β).toDisk := by
      rcases Prog.bind_cases run with ⟨e, whole, rfl⟩ | ⟨_, w₄, whole, run⟩
      · exact (verifyWhole_sameDisk manifest).run whole
      · cases run
        exact (verifyWhole_sameDisk manifest).run whole
    refine ⟨indices', content', (congrArg Disk.part disk).trans part', keeps', .inr ?_⟩
    rw [show w'.progress = progress from congrArg Disk.progress disk]
    exact names

end SecureTransfer.ApproachB
