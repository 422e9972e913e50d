import SecureTransfer.Library.Pattern
import SecureTransfer.Library.PosixPath
import SecureTransfer.ApproachB.BrokerStore

/-! # Which keys the broker accepts

`_safe_path` against the grammar that its comment describes: what the pattern matches, and
where the path of an accepted key lies below the storage root. The pattern's `$` and a name
that is a single dot are where the two part.
-/

namespace SecureTransfer.ApproachB

open Library

/-- `_KEY_RE`. -/
def keyRe : Pattern :=
  [.start, .repeated isNamespaceChar 1 128, .literal '/', .repeated isNameChar 1 128, .finish]

/-- The path `_safe_path` returns: `os.path.join(storage_root, namespace, name)`. -/
def pathBelow (root key : String) : Option (List Char) :=
  (safePath key).map fun path => PosixPath.join (PosixPath.join root.toList path.1.toList) path.2.toList

/-- `space/name`, as the comment describes a key. -/
structure IsKey (space name : List Char) : Prop where
  namespaced : isSegment isNamespaceChar space = true
  named : isSegment isNameChar name = true
  dots : ¬ ['.', '.'] <:+: name
  dot : name ≠ ['.']

def Documented (key : String) : Prop := ∃ space name, key.toList = space ++ '/' :: name ∧ IsKey space name

/-- The key is accepted if and only if it is a documented one, and its path lies two levels
    below any storage root and is that of no other key. -/
structure Conforms (key : String) : Prop where
  accepted : (safePath key).isSome = true ↔ Documented key
  below : ∀ root path, pathBelow root key = some path → ∃ space name,
    PosixPath.normpath path =
      { PosixPath.normpath root.toList with parts := (PosixPath.normpath root.toList).parts ++ [space, name] }
  determined : ∀ root path key' path', pathBelow root key = some path → pathBelow root key' = some path' →
    PosixPath.normpath path' = PosixPath.normpath path → key' = key

/-- A documented namespace with a single dot, or a documented name with a newline behind it. -/
def Slips (key : String) : Prop :=
  ∃ space name, isSegment isNamespaceChar space = true ∧ key.toList = space ++ '/' :: name ∧
    (name = ['.'] ∨
      ∃ bare, name = bare ++ ['\n'] ∧ isSegment isNameChar bare = true ∧ ¬ ['.', '.'] <:+: bare)

/-! ## The pattern -/

theorem hasDots_iff {text : List Char} : hasDots text = true ↔ ['.', '.'] <:+: text := by
  induction text with
  | nil => simp [hasDots]
  | cons c text ih =>
      rw [List.infix_cons_iff, ← ih, hasDots.eq_def]
      split
      · rename_i rest same
        obtain ⟨rfl, rfl⟩ := List.cons.inj same
        exact ⟨fun _ => .inl ⟨rest, rfl⟩, fun _ => rfl⟩
      · rename_i rest not_dots same
        obtain ⟨rfl, rfl⟩ := List.cons.inj same
        refine ⟨.inr, fun found => found.resolve_left ?_⟩
        rintro ⟨later, split⟩
        obtain ⟨rfl, rfl⟩ := List.cons.inj split
        exact not_dots later rfl rfl
      · rename_i same
        cases same

theorem bareName_segment {name : List Char} :
    isSegment isNameChar (bareName name) = true ↔
      ∃ bare last, name = bare ++ last ∧ (last = [] ∨ last = ['\n']) ∧ isSegment isNameChar bare = true := by
  constructor
  · intro segment
    unfold bareName at segment
    split at segment
    · rename_i newline
      obtain ⟨front, rfl⟩ := List.getLast?_eq_some_iff.mp newline
      rw [List.dropLast_concat] at segment
      exact ⟨front, ['\n'], rfl, .inr rfl, segment⟩
    · exact ⟨name, [], (List.append_nil name).symm, .inl rfl, segment⟩
  · rintro ⟨bare, last, rfl, rfl | rfl, segment⟩
    · have solid : bare.getLast? ≠ some '\n' := fun newline =>
        absurd (isSegment_class segment '\n' (List.mem_of_getLast? newline)) (by decide)
      rw [List.append_nil, bareName, if_neg solid]
      exact segment
    · rw [bareName, if_pos List.getLast?_concat, List.dropLast_concat]
      exact segment

theorem isSegment_iff {inClass : Char → Bool} {segment : List Char} :
    isSegment inClass segment = true ↔
      1 ≤ segment.length ∧ segment.length ≤ 128 ∧ ∀ c ∈ segment, inClass c = true := by
  simp [isSegment, and_assoc]

/-- What is accepted: two components of the pattern, without two dots in a row. -/
theorem safePath_iff {key : String} {path : BlobPath} :
    safePath key = some path ↔ key.toList = path.1.toList ++ '/' :: path.2.toList ∧
      isSegment isNamespaceChar path.1.toList = true ∧ isSegment isNameChar (bareName path.2.toList) = true ∧
      hasDots path.2.toList = false := by
  have name_dots : ∀ space name : List Char, isSegment isNamespaceChar space = true →
      hasDots (space ++ '/' :: name) = hasDots name := by
    intro space name segment
    rw [hasDots_append fun member => absurd (isSegment_class segment '.' member) (by decide)]
    cases name <;> rfl
  constructor
  · intro accepted
    obtain ⟨space, name, dots⟩ := safePath_segments accepted
    have parts := (safePath_parts accepted).1
    rw [parts, name_dots _ _ space] at dots
    exact ⟨parts, space, name, dots⟩
  · rintro ⟨parts, space, name, dots⟩
    have noSlash : '/' ∉ path.1.toList := fun member => absurd (isSegment_class space '/' member) (by decide)
    simp only [safePath, parts, takeWhile_slash _ noSlash, dropWhile_slash _ noSlash, List.drop_one,
      List.tail_cons, space, name, name_dots _ _ space, dots, Bool.not_false, Bool.and_self, if_true,
      String.ofList_toList]

/-- **The pattern.** A key is accepted where `_KEY_RE` matches it and it holds no `..`. -/
theorem safePath_keyRe (key : String) :
    (safePath key).isSome = true ↔ keyRe.accepts key.toList = true ∧ hasDots key.toList = false := by
  rw [Pattern.accepts_iff, Option.isSome_iff_exists]
  simp only [keyRe, Pattern.Matches, true_and]
  constructor
  · rintro ⟨path, accepted⟩
    obtain ⟨space, _, dots⟩ := safePath_segments accepted
    obtain ⟨parts, _, name, _⟩ := safePath_iff.mp accepted
    obtain ⟨bare, last, split, ends, segment⟩ := bareName_segment.mp name
    obtain ⟨some_space, short, classes⟩ := isSegment_iff.mp space
    obtain ⟨some_name, short', classes'⟩ := isSegment_iff.mp segment
    exact ⟨⟨last, path.1.toList, _, parts, some_space, short, classes, _, rfl, bare, last, split, some_name,
      short', classes', ends, rfl⟩, dots⟩
  · rintro ⟨⟨_, space, _, parts, some_space, short, classes, name, rfl, bare, last, rfl, some_name, short',
      classes', ends, _⟩, dots⟩
    have segment := isSegment_iff.mpr ⟨some_space, short, classes⟩
    have noDot : '.' ∉ space := fun member => absurd (classes '.' member) (by decide)
    refine ⟨(String.ofList space, String.ofList (bare ++ last)), safePath_iff.mpr ?_⟩
    simp only [String.toList_ofList]
    refine ⟨parts, segment, bareName_segment.mpr ⟨bare, last, rfl, ends, ?_⟩, ?_⟩
    · exact isSegment_iff.mpr ⟨some_name, short', classes'⟩
    · rw [parts, hasDots_append noDot] at dots
      cases h : bare ++ last with
      | nil => rfl
      | cons c name =>
          rw [h] at dots
          exact dots

/-! ## The documented keys -/

theorem segment_noSlash {space : List Char} (h : isSegment isNamespaceChar space = true) : '/' ∉ space :=
  fun member => absurd (isSegment_class h '/' member) (by decide)

theorem split_inj {space space' name name' : List Char} (h : isSegment isNamespaceChar space = true)
    (h' : isSegment isNamespaceChar space' = true) (same : space ++ '/' :: name = space' ++ '/' :: name') :
    space = space' ∧ name = name' := by
  have spaces := congrArg (List.takeWhile (· ≠ '/')) same
  rw [takeWhile_slash _ (segment_noSlash h), takeWhile_slash _ (segment_noSlash h')] at spaces
  subst spaces
  exact ⟨rfl, (List.cons.inj (List.append_cancel_left same)).2⟩

theorem IsKey.accepted {space name : List Char} (h : IsKey space name) :
    safePath (String.ofList (space ++ '/' :: name)) = some (String.ofList space, String.ofList name) :=
  safePath_join h.namespaced h.named (Bool.eq_false_iff.mpr (mt hasDots_iff.mp h.dots))

/-- An accepted key is a documented one, or one of the two slips. -/
theorem accepted_cases {key : String} {path : BlobPath} (accepted : safePath key = some path) :
    IsKey path.1.toList path.2.toList ∨ Slips key := by
  obtain ⟨parts, space, name, dots⟩ := safePath_iff.mp accepted
  have plain : ¬ ['.', '.'] <:+: path.2.toList := fun found => by
    rw [hasDots_iff.mpr found] at dots
    cases dots
  by_cases dot : path.2.toList = ['.']
  · exact .inr ⟨_, _, space, parts, .inl dot⟩
  · obtain ⟨bare, last, split, rfl | rfl, segment⟩ := bareName_segment.mp name
    · rw [List.append_nil] at split
      rw [← split] at segment
      exact .inl ⟨space, segment, plain, dot⟩
    · have bare_plain : ¬ ['.', '.'] <:+: bare := fun found =>
        plain (split ▸ found.trans (List.prefix_append bare _).isInfix)
      exact .inr ⟨_, _, space, parts, .inr ⟨bare, split, segment, bare_plain⟩⟩

theorem dots_newline {bare : List Char} (plain : ¬ ['.', '.'] <:+: bare) :
    hasDots (bare ++ ['\n']) = false := by
  rw [Bool.eq_false_iff, Ne, hasDots_iff, List.infix_concat_iff]
  rintro (⟨front, ends⟩ | found)
  · have last := congrArg List.getLast? ends
    simp at last
  · exact plain found

/-- What slips is accepted, and is not documented. -/
theorem Slips.accepted {key : String} (slips : Slips key) :
    (safePath key).isSome = true ∧ ¬ Documented key := by
  obtain ⟨space, name, segment, parts, slip⟩ := slips
  have pattern : isSegment isNameChar (bareName name) = true ∧ hasDots name = false := by
    rcases slip with rfl | ⟨bare, rfl, bare_segment, plain⟩
    · decide
    · exact ⟨bareName_segment.mpr ⟨bare, _, rfl, .inr rfl, bare_segment⟩, dots_newline plain⟩
  constructor
  · have accepted : safePath key = some (String.ofList space, String.ofList name) := by
      apply safePath_iff.mpr
      simp only [String.toList_ofList]
      exact ⟨parts, segment, pattern⟩
    rw [accepted]
    rfl
  · rintro ⟨space', name', parts', documented⟩
    obtain ⟨_, rfl⟩ := split_inj segment documented.namespaced (parts.symm.trans parts')
    rcases slip with rfl | ⟨bare, rfl, _, _⟩
    · exact documented.dot rfl
    · exact absurd (isSegment_class documented.named '\n' (by simp)) (by decide)

/-! ## Their paths -/

theorem pathBelow_eq (root : String) {key : String} {path : BlobPath} (accepted : safePath key = some path) :
    ∃ joined, pathBelow root key = some joined ∧ PosixPath.normpath joined =
      ((PosixPath.normpath root.toList).step path.1.toList).step path.2.toList := by
  obtain ⟨_, space, name⟩ := safePath_parts accepted
  refine ⟨_, by rw [pathBelow, accepted]; rfl, ?_⟩
  rw [PosixPath.normpath_join name, PosixPath.normpath_join space]

/-- A component of the pattern is one level down. -/
theorem step_space {space : List Char} (segment : isSegment isNamespaceChar space = true)
    (path : PosixPath.Normal) : path.step space = { path with parts := path.parts ++ [space] } := by
  have noDot : '.' ∉ space := fun member => absurd (isSegment_class segment '.' member) (by decide)
  refine PosixPath.Normal.step_down ?_ ?_ ?_
  · rintro rfl
    exact absurd segment (by decide)
  · rintro rfl
    exact noDot List.mem_cons_self
  · rintro rfl
    exact noDot List.mem_cons_self

/-- So is the name, where it is not a single dot. -/
theorem step_name {name : List Char} (segment : isSegment isNameChar (bareName name) = true)
    (plain : hasDots name = false) (dot : name ≠ ['.']) (path : PosixPath.Normal) :
    path.step name = { path with parts := path.parts ++ [name] } := by
  refine PosixPath.Normal.step_down ?_ dot ?_
  · rintro rfl
    exact absurd segment (by decide)
  · rintro rfl
    exact absurd plain (by decide)

/-- An accepted key lies two levels below the root, or one where its name is a single dot. -/
theorem pathBelow_parts (root : String) {key : String} {path : BlobPath} (accepted : safePath key = some path) :
    ∃ joined, pathBelow root key = some joined ∧ PosixPath.normpath joined =
      { PosixPath.normpath root.toList with
        parts := (PosixPath.normpath root.toList).parts ++
          if path.2.toList = ['.'] then [path.1.toList] else [path.1.toList, path.2.toList] } := by
  obtain ⟨_, space, name, plain⟩ := safePath_iff.mp accepted
  obtain ⟨joined, below, normal⟩ := pathBelow_eq root accepted
  refine ⟨joined, below, ?_⟩
  rw [normal, step_space space]
  split
  · rename_i dot
    rw [dot, PosixPath.Normal.step_dot]
  · rename_i dot
    rw [step_name name plain dot, List.append_assoc]
    rfl

theorem pathBelow_some {root key : String} {joined : List Char} (below : pathBelow root key = some joined) :
    ∃ path, safePath key = some path := by
  rw [pathBelow, Option.map_eq_some_iff] at below
  obtain ⟨path, accepted, _⟩ := below
  exact ⟨path, accepted⟩

theorem accepted_documented {key : String} (slips : ¬ Slips key) {path : BlobPath}
    (accepted : safePath key = some path) : IsKey path.1.toList path.2.toList :=
  (accepted_cases accepted).resolve_right slips

/-- **The key grammar.** `_safe_path` accepts just the documented keys, each with a path of its
    own two levels below the root, except for a name that is a single dot and for a newline
    at the end. -/
theorem safe_path_grammar (key : String) : Conforms key ↔ ¬ Slips key := by
  constructor
  · intro conforms slips
    obtain ⟨accepted, undocumented⟩ := slips.accepted
    exact undocumented (conforms.accepted.mp accepted)
  · intro slips
    refine ⟨⟨fun accepted => ?_, ?_⟩, ?_, ?_⟩
    · obtain ⟨path, accepted⟩ := Option.isSome_iff_exists.mp accepted
      exact ⟨_, _, (safePath_iff.mp accepted).1, accepted_documented slips accepted⟩
    · rintro ⟨space, name, parts, documented⟩
      have accepted := documented.accepted
      rw [← parts, String.ofList_toList] at accepted
      rw [accepted]
      rfl
    · intro root joined below
      obtain ⟨path, accepted⟩ := pathBelow_some below
      obtain ⟨_, below', normal⟩ := pathBelow_parts root accepted
      obtain rfl := Option.some.inj (below.symm.trans below')
      rw [if_neg (accepted_documented slips accepted).dot] at normal
      exact ⟨_, _, normal⟩
    · intro root joined key' joined' below below' same
      obtain ⟨path, accepted⟩ := pathBelow_some below
      obtain ⟨path', accepted'⟩ := pathBelow_some below'
      obtain ⟨_, at_joined, normal⟩ := pathBelow_parts root accepted
      obtain ⟨_, at_joined', normal'⟩ := pathBelow_parts root accepted'
      obtain rfl := Option.some.inj (below.symm.trans at_joined)
      obtain rfl := Option.some.inj (below'.symm.trans at_joined')
      rw [normal, normal', if_neg (accepted_documented slips accepted).dot, PosixPath.Normal.mk.injEq] at same
      have parts := List.append_cancel_left same.2
      split at parts
      · exact absurd (congrArg List.length parts) (by simp)
      · rw [List.cons.injEq, List.cons.injEq] at parts
        have keys := (safePath_iff.mp accepted').1
        rw [parts.1, parts.2.1, ← (safePath_iff.mp accepted).1] at keys
        exact String.toList_inj.mp keys

/-- `n/.` is accepted: its path is that of the directory `n`. -/
theorem safe_path_single_dot : ¬ Conforms "n/." := by
  intro conforms
  obtain ⟨space, name, parts, documented⟩ := conforms.accepted.mp (by decide)
  have segment : isSegment isNamespaceChar ['n'] = true := by decide
  exact documented.dot (split_inj segment documented.namespaced parts).2.symm

end SecureTransfer.ApproachB
