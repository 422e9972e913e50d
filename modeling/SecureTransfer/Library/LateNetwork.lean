import SecureTransfer.Library.Client

/-! # A network that delivers late

A command that was posted may be carried out at any time after, and any number of times, also
when its client has given up on it. Where a server only grows in what its clients depend on,
two rules hold of every run: what each client knows stays true, and each client saw a row of
server states, each later than the one before.
-/

namespace SecureTransfer.Library

variable {C : Type} {R : C → Type} {α σ κ ε ω ι : Type} {γ : ι → Type}

/-- A server, its clients, what each of them ever posted and what was replied to the command
    it waits for. -/
structure LateNetwork (C : Type) (R : C → Type) (γ : ι → Type) (σ : Type) where
  server : σ
  clients : ∀ i, Client C R (γ i)
  posted : ι → C → Prop
  replied : ι → ∀ c, R c → Prop

namespace LateNetwork

def start (server : σ) (clients : ∀ i, Client C R (γ i)) : LateNetwork C R γ σ where
  server := server
  clients := clients
  posted _ _ := False
  replied _ _ _ := False

def post (s : LateNetwork C R γ σ) (i : ι) (c : C) : LateNetwork C R γ σ :=
  { s with
    posted := fun j d => s.posted j d ∨ (j = i ∧ d = c)
    replied := fun j d r => j ≠ i ∧ s.replied j d r }

def carryOut (serve : ∀ c, σ → R c × σ) (s : LateNetwork C R γ σ) (i : ι) (c : C) : LateNetwork C R γ σ :=
  { s with
    server := (serve c s.server).2
    replied := fun j d r => s.replied j d r ∨ (j = i ∧ (⟨d, r⟩ : Sigma R) = ⟨c, (serve c s.server).1⟩) }

section Steps

variable [DecidableEq ι]

def goOn (s : LateNetwork C R γ σ) (i : ι) (client : Client C R (γ i)) : LateNetwork C R γ σ :=
  { s with
    clients := Function.update s.clients i client
    replied := fun j d r => j ≠ i ∧ s.replied j d r }

/-- A client posts its command; the server carries a command out; a client goes on with a reply,
    or with an error instead. -/
inductive Step (serve : ∀ c, σ → R c × σ) (fail : ε → ∀ c, R c) (s : LateNetwork C R γ σ) :
    LateNetwork C R γ σ → Prop where
  | post (i : ι) {c : C} {next : R c → Client C R (γ i)} (asks : s.clients i = .ask c next) :
      Step serve fail s (s.post i c)
  | carryOut (i : ι) {c : C} (posted : s.posted i c) : Step serve fail s (s.carryOut serve i c)
  | reply (i : ι) {c : C} {next : R c → Client C R (γ i)} (asks : s.clients i = .ask c next) {r : R c}
      (got : s.replied i c r) : Step serve fail s (s.goOn i (next r))
  | fail (i : ι) {c : C} {next : R c → Client C R (γ i)} (asks : s.clients i = .ask c next) (e : ε) :
      Step serve fail s (s.goOn i (next (fail e c)))

end Steps

/-! ## What grows -/

/-- The server stays `Good` and goes to `Later` states by `Allowed` commands; the protocol asks
    only for those, and what is `Sound` to know stays so. -/
structure Growing (serve : ∀ c, σ → R c × σ) (fail : ε → ∀ c, R c) (p : Client.Protocol κ C R)
    (Good : σ → Prop) (Later : σ → σ → Prop) (Allowed : σ → C → Prop) (Sound : σ → κ → Prop) : Prop where
  good : ∀ {s c}, Good s → Allowed s c → Good (serve c s).2
  later : ∀ {s c}, Good s → Allowed s c → Later s (serve c s).2
  allowed : ∀ {s s' c}, Later s s' → Allowed s c → Allowed s' c
  sound : ∀ {s s' k}, Later s s' → Sound s k → Sound s' k
  may : ∀ {s k c}, Good s → Sound s k → p.may k c → Allowed s c
  learn : ∀ {s k c}, Good s → Sound s k → Allowed s c → Sound (serve c s).2 (p.learn k c (serve c s).1)
  fails : ∀ {s k} e c, Sound s k → Sound s (p.learn k c (fail e c))

variable {serve : ∀ c, σ → R c × σ} {fail : ε → ∀ c, R c} {p : Client.Protocol κ C R} {Good : σ → Prop}
  {Later : σ → σ → Prop} {Allowed : σ → C → Prop} {Sound : σ → κ → Prop}

/-- The knowledge `k` of the clients fits the network. -/
structure Known (p : Client.Protocol κ C R) (Good : σ → Prop) (Allowed : σ → C → Prop) (Sound : σ → κ → Prop)
    (Post : ∀ i, γ i → κ → Prop) (s : LateNetwork C R γ σ) (k : ι → κ) : Prop where
  good : Good s.server
  posted : ∀ i c, s.posted i c → Allowed s.server c
  sound : ∀ i, Sound s.server (k i)
  replied : ∀ i c r, s.replied i c r → Sound s.server (p.learn (k i) c r)
  follows : ∀ i, (s.clients i).Follows p (Post i) (k i)

variable {Post : ∀ i, γ i → κ → Prop} {s s' : LateNetwork C R γ σ} {k : ι → κ}

theorem Known.start {server : σ} {clients : ∀ i, Client C R (γ i)} (good : Good server)
    (sound : ∀ i, Sound server (k i)) (follows : ∀ i, (clients i).Follows p (Post i) (k i)) :
    Known p Good Allowed Sound Post (start server clients) k where
  good := good
  posted _ _ := False.elim
  sound := sound
  replied _ _ _ := False.elim
  follows := follows

variable [DecidableEq ι]

/-- The client `i` goes on with a reply from which it is sound to learn. -/
theorem Known.goOn (known : Known p Good Allowed Sound Post s k) {i : ι} {c : C} {next : R c → Client C R (γ i)}
    (asks : s.clients i = .ask c next) {r : R c} (sound : Sound s.server (p.learn (k i) c r)) :
    Known p Good Allowed Sound Post (s.goOn i (next r)) (Function.update k i (p.learn (k i) c r)) where
  good := known.good
  posted := known.posted
  sound j := by
    by_cases here : j = i
    · subst here
      rw [Function.update_self]
      exact sound
    · rw [Function.update_of_ne here]
      exact known.sound j
  replied j d r := by
    rintro ⟨other, before⟩
    rw [Function.update_of_ne other]
    exact known.replied j d r before
  follows j := by
    by_cases here : j = i
    · subst here
      have mine := known.follows j
      rw [asks] at mine
      change (Function.update s.clients j _ j).Follows _ _ _
      rw [Function.update_self, Function.update_self]
      exact mine.of_ask.2 _
    · change (Function.update s.clients i _ j).Follows _ _ _
      rw [Function.update_of_ne here, Function.update_of_ne here]
      exact known.follows j

/-- The step lemma: knowledge is kept, and the server goes to a later state. -/
theorem Growing.step [Std.Refl Later] (growing : Growing serve fail p Good Later Allowed Sound)
    (known : Known p Good Allowed Sound Post s k) (step : Step serve fail s s') :
    Later s.server s'.server ∧ ∃ k', Known p Good Allowed Sound Post s' k' := by
  cases step with
  | @post i c next asks =>
      refine ⟨Std.Refl.refl _, k, known.good, ?_, known.sound, fun j d r got => known.replied j d r got.2, known.follows⟩
      rintro j d (before | ⟨rfl, rfl⟩)
      · exact known.posted j d before
      · have mine := known.follows j
        rw [asks] at mine
        exact growing.may known.good (known.sound j) mine.of_ask.1
  | @carryOut i c posted =>
      have may := known.posted i c posted
      have later := growing.later known.good may
      refine ⟨later, k, growing.good known.good may, fun j d before => growing.allowed later (known.posted j d before),
        fun j => growing.sound later (known.sound j), ?_, known.follows⟩
      rintro j d r (before | ⟨rfl, new⟩)
      · exact growing.sound later (known.replied j d r before)
      · cases new
        exact growing.learn known.good (known.sound j) may
  | @reply i c next asks r got => exact ⟨Std.Refl.refl _, _, known.goOn asks (known.replied i c r got)⟩
  | @fail i c next asks e => exact ⟨Std.Refl.refl _, _, known.goOn asks (growing.fails e c (known.sound i))⟩

/-- **Knowledge.** It is kept along every run. -/
theorem Growing.run [Std.Refl Later] [IsTrans σ Later] (growing : Growing serve fail p Good Later Allowed Sound)
    (known : Known p Good Allowed Sound Post s k) (run : Relation.ReflTransGen (Step serve fail) s s') :
    Later s.server s'.server ∧ ∃ k', Known p Good Allowed Sound Post s' k' := by
  induction run with
  | refl => exact ⟨Std.Refl.refl _, k, known⟩
  | tail _ step ih =>
      obtain ⟨since, _, known⟩ := ih
      obtain ⟨later, known'⟩ := growing.step known step
      exact ⟨IsTrans.trans _ _ _ since later, known'⟩

/-! ## What a client saw -/

/-- A server whose state at each command was decided beforehand, and whether it fails. -/
def gallery (reply : ∀ c, σ → R c) (fail : ε → ∀ c, R c) (last : σ × Option ε) (c : C)
    (row : List (σ × Option ε)) : R c × List (σ × Option ε) :=
  ((row.headD last).2.elim (reply c (row.headD last).1) (fail · c), row.tail)

/-- The client `i` went along `row`, and a reply it may go on with is one of a later state. -/
structure Saw (serve : ∀ c, σ → R c × σ) (fail : ε → ∀ c, R c) (Good : σ → Prop) (Later : σ → σ → Prop)
    (last : σ × Option ε) (i : ι) (s s' : LateNetwork C R γ σ) (row : List (σ × Option ε)) : Prop where
  went : ∀ rest, (s.clients i).play (gallery (fun c x => (serve c x).1) fail last) (row ++ rest) =
    (s'.clients i).play (gallery (fun c x => (serve c x).1) fail last) rest
  found : ∀ x ∈ row, Good x.1 ∧ Later s.server x.1 ∧ Later x.1 s'.server
  ordered : (row.map Prod.fst).Pairwise Later
  replied : ∀ c r, s'.replied i c r → ∃ x, Good x ∧ Later s.server x ∧ (∀ y ∈ row, Later y.1 x) ∧
    Later x s'.server ∧ r = (serve c x).1

variable {last : σ × Option ε} {i : ι} {row : List (σ × Option ε)} {s₀ : LateNetwork C R γ σ}

omit [DecidableEq ι] in
/-- The server goes on, the client does not. -/
theorem Saw.later [IsTrans σ Later] (saw : Saw serve fail Good Later last i s₀ s row) (later : Later s.server s'.server)
    (same : s'.clients i = s.clients i)
    (replied : ∀ c r, s'.replied i c r → s.replied i c r ∨ (Good s.server ∧ r = (serve c s.server).1))
    (since : Later s₀.server s.server) : Saw serve fail Good Later last i s₀ s' row where
  went rest := by rw [saw.went, same]
  found x member := by
    obtain ⟨good, after, before⟩ := saw.found x member
    exact ⟨good, after, IsTrans.trans _ _ _ before later⟩
  ordered := saw.ordered
  replied c r got := by
    rcases replied c r got with before | ⟨good, rfl⟩
    · obtain ⟨x, good, after, behind, before, same⟩ := saw.replied c r before
      exact ⟨x, good, after, behind, IsTrans.trans _ _ _ before later, same⟩
    · exact ⟨s.server, good, since, fun y member => (saw.found y member).2.2, later, rfl⟩

/-- The client goes on. -/
theorem Saw.goOn (saw : Saw serve fail Good Later last i s₀ s row) {c : C} {next : R c → Client C R (γ i)}
    (asks : s.clients i = .ask c next) {x : σ × Option ε}
    (here : Good x.1 ∧ Later s₀.server x.1 ∧ Later x.1 s.server) (behind : ∀ y ∈ row, Later y.1 x.1) :
    Saw serve fail Good Later last i s₀ (s.goOn i (next (x.2.elim (serve c x.1).1 (fail · c)))) (row ++ [x]) where
  went rest := by
    rw [List.append_assoc, saw.went, asks]
    change _ = (Function.update s.clients i _ i).play _ _
    rw [Function.update_self]
    rfl
  found y member := by
    rcases List.mem_append.mp member with old | new
    · exact saw.found y old
    · obtain rfl := List.mem_singleton.mp new
      exact here
  ordered := by
    rw [List.map_append, List.pairwise_append]
    refine ⟨saw.ordered, List.pairwise_singleton _ _, fun y member z new => ?_⟩
    obtain ⟨y, inside, rfl⟩ := List.mem_map.mp member
    obtain rfl := List.mem_singleton.mp new
    exact behind y inside
  replied d r got := absurd rfl got.1

/-- **Observation.** A client of a run saw a row of good states, each later than the one before,
    and went on as it would have along that row. -/
theorem Growing.observed [Std.Refl Later] [IsTrans σ Later] (last : σ × Option ε)
    (growing : Growing serve fail p Good Later Allowed Sound)
    (known : Known p Good Allowed Sound Post s k) (fresh : ∀ c r, ¬ s.replied i c r)
    (run : Relation.ReflTransGen (Step serve fail) s s') : ∃ row, Saw serve fail Good Later last i s s' row := by
  induction run with
  | refl =>
      exact ⟨[], fun _ => rfl, List.forall_mem_nil _, List.Pairwise.nil, fun c r got => absurd got (fresh c r)⟩
  | @tail s₁ s₂ run step ih =>
      obtain ⟨row, saw⟩ := ih
      obtain ⟨since, _, known₁⟩ := growing.run known run
      obtain ⟨later, _⟩ := growing.step known₁ step
      have good := known₁.good
      cases step with
      | post j asks => exact ⟨row, saw.later later rfl (fun _ _ got => .inl got.2) since⟩
      | carryOut j posted =>
          refine ⟨row, saw.later later rfl ?_ since⟩
          rintro c r (before | ⟨_, same⟩)
          · exact .inl before
          · cases same
            exact .inr ⟨good, rfl⟩
      | @reply j c next asks r got =>
          by_cases here : i = j
          · subst here
            obtain ⟨x, good, after, behind, before, rfl⟩ := saw.replied c r got
            exact ⟨_, saw.goOn (x := (x, none)) asks ⟨good, after, before⟩ behind⟩
          · exact ⟨row, saw.later later (Function.update_of_ne here ..) (fun _ _ got => .inl got.2) since⟩
      | @fail j c next asks e =>
          by_cases here : i = j
          · subst here
            exact ⟨_, saw.goOn (x := (s₁.server, some e)) asks ⟨good, since, Std.Refl.refl _⟩
              fun y member => (saw.found y member).2.2⟩
          · exact ⟨row, saw.later later (Function.update_of_ne here ..) (fun _ _ got => .inl got.2) since⟩

end LateNetwork

end SecureTransfer.Library
