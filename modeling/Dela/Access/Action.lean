import Mathlib.Data.List.Basic

/-!
The `add` action of the access contract's controller (contracts/access/controller).
`Execute` resolves the native service, the access service and the access store from the
injector, parses the identities of the `identity` flag, and grants them access with the
controller's credential. `parseIdentities` decodes each identity from base64 and
unmarshals the bytes as a BLS public key, into a slice that `make` filled with nil
identities. The injector, the two library calls and `Grant` are collaborators: they are
given by what they return.
-/
namespace Dela.Access

variable {E K S : Type}

structure Codec (E K : Type) where
  decodeString : String → Except E (List UInt8)
  newPublicKey : List UInt8 → Except E K

inductive ParseError (E : Type) where
  /-- `failed to decode pub key '%s': %v` -/
  | decode (id : String) (err : E)
  /-- `failed to unmarshal identity '%s': %v` -/
  | unmarshal (id : String) (err : E)
  deriving DecidableEq, Repr

def Codec.parse (c : Codec E K) (id : String) : Except (ParseError E) K := do
  let idBuf ← (c.decodeString id).mapError (.decode id)
  (c.newPublicKey idBuf).mapError (.unmarshal id)

def parseFrom (c : Codec E K) (i : Nat) (identities : List (Option K)) :
    List String → Except (ParseError E) (List (Option K))
  | [] => .ok identities
  | id :: rest => do
    let pk ← c.parse id
    parseFrom c (i + 1) (identities.set i (some pk)) rest

def parseIdentities (c : Codec E K) (idsStr : List String) :
    Except (ParseError E) (List (Option K)) :=
  parseFrom c 0 (List.replicate idsStr.length none) idsStr

structure ExecEnv (E K S : Type) where
  native : Option E
  access : Option E
  store : Except E S
  identity : List String
  grant : S → List (Option K) → Option E

inductive ExecError (E : Type) where
  /-- `failed to resolve native service: %v` -/
  | resolveNative (err : E)
  /-- `failed to resolve access service: %v` -/
  | resolveAccess (err : E)
  /-- `failed to resolve access store: %v` -/
  | resolveStore (err : E)
  /-- `failed to parse identities: %v` -/
  | parse (err : ParseError E)
  /-- `failed to grant: %v` -/
  | grant (err : E)
  deriving DecidableEq, Repr

def execute (c : Codec E K) (env : ExecEnv E K S) :
    Option (S × List (Option K)) × Except (ExecError E) Unit :=
  match env.native, env.access, env.store with
  | some err, _, _ => (none, .error (.resolveNative err))
  | none, some err, _ => (none, .error (.resolveAccess err))
  | none, none, .error err => (none, .error (.resolveStore err))
  | none, none, .ok store =>
    match parseIdentities c env.identity with
    | .error err => (none, .error (.parse err))
    | .ok identities =>
      (some (store, identities),
        match env.grant store identities with
        | some err => .error (.grant err)
        | none => .ok ())

theorem set_length_append {α : Type} (pre tail : List α) (x y : α) :
    (pre ++ x :: tail).set pre.length y = pre ++ y :: tail := by
  rw [List.set_append_right _ _ le_rfl, Nat.sub_self, List.set_cons_zero]

theorem parseFrom_eq (c : Codec E K) :
    ∀ (rest : List String) (pre : List (Option K)),
      parseFrom c pre.length (pre ++ List.replicate rest.length none) rest =
        (rest.mapM c.parse).map (pre ++ ·.map some)
  | [], pre => rfl
  | id :: rest, pre => by
    simp only [parseFrom, List.length_cons, List.replicate_succ, set_length_append,
      List.mapM_cons]
    cases c.parse id with
    | error err => rfl
    | ok pk =>
      have := parseFrom_eq c rest (pre ++ [some pk])
      simp only [List.length_append, List.length_singleton, List.append_assoc,
        List.singleton_append] at this
      simp only [bind, Except.bind, this]
      cases rest.mapM c.parse <;> rfl

theorem parseIdentities_eq (c : Codec E K) (idsStr : List String) :
    parseIdentities c idsStr = (idsStr.mapM c.parse).map (·.map some) := by
  simpa using parseFrom_eq c idsStr []

theorem mapM_eq_error {α β ε : Type} (f : α → Except ε β) :
    ∀ (l : List α) (e : ε), l.mapM f = .error e →
      ∃ pre x post ks, l = pre ++ x :: post ∧ pre.mapM f = .ok ks ∧ f x = .error e
  | [], e, h => by cases h
  | x :: l, e, h => by
    rw [List.mapM_cons] at h
    cases hx : f x with
    | error e' =>
      rw [hx] at h; cases h
      exact ⟨[], x, l, [], rfl, rfl, hx⟩
    | ok b =>
      rw [hx] at h
      cases hl : l.mapM f with
      | error e' =>
        rw [hl] at h; cases h
        obtain ⟨pre, y, post, ks, rfl, hpre, hy⟩ := mapM_eq_error f l e hl
        exact ⟨x :: pre, y, post, b :: ks, rfl, by rw [List.mapM_cons, hx, hpre]; rfl, hy⟩
      | ok bs => rw [hl] at h; cases h

/-- `Execute` grants access to all the identities of the flag or to none. It calls `Grant`
exactly when the three services resolve and every identity decodes and unmarshals, and then
with one key per identity, in the flag's order, none nil. A parse error it returns names
the first identity that does not decode or unmarshal. -/
theorem execute_grants_all_or_none (c : Codec E K) (env : ExecEnv E K S) :
    (∀ store identities, (execute c env).1 = some (store, identities) ↔
      env.native = none ∧ env.access = none ∧ env.store = .ok store ∧
        ∃ ks, env.identity.mapM c.parse = .ok ks ∧ identities = ks.map some) ∧
    ∀ err, (execute c env).2 = .error (.parse err) →
      ∃ pre id post ks, env.identity = pre ++ id :: post ∧ pre.mapM c.parse = .ok ks ∧
        c.parse id = .error err := by
  obtain ⟨native, access, st, identity, grant⟩ := env
  have hp := parseIdentities_eq c identity
  refine ⟨fun store identities => ?_, fun err h => ?_⟩
  · cases native <;> cases access <;> cases st <;> simp only [execute] <;> try (simp; done)
    rw [hp]
    cases identity.mapM c.parse <;> simp [Functor.map, Except.map, eq_comm]
  · cases native <;> cases access <;> cases st <;> simp only [execute] at h <;> try cases h
    rw [hp] at h
    cases hm : identity.mapM c.parse with
    | error e =>
      rw [hm] at h
      cases h
      exact mapM_eq_error c.parse identity err hm
    | ok ks =>
      rw [hm] at h
      dsimp only [Functor.map, Except.map] at h
      split at h <;> cases h

def demoCodec : Codec Unit Nat := ⟨fun id => if id = "bad" then .error () else .ok [], fun _ => .ok 0⟩

def demoEnv : ExecEnv Unit Nat Unit := ⟨none, none, .ok (), ["a", "bad", "c"], fun _ _ => none⟩

theorem execute_stops_at_bad :
    (execute demoCodec demoEnv).2 = .error (.parse (.decode ("bad") ())) ∧
    ((∀ store identities, (execute demoCodec demoEnv).1 = some (store, identities) ↔
      demoEnv.native = none ∧ demoEnv.access = none ∧ demoEnv.store = .ok store ∧
        ∃ ks, demoEnv.identity.mapM demoCodec.parse = .ok ks ∧ identities = ks.map some) ∧
    ∀ err, (execute demoCodec demoEnv).2 = .error (.parse err) →
      ∃ pre id post ks, demoEnv.identity = pre ++ id :: post ∧
        pre.mapM demoCodec.parse = .ok ks ∧ demoCodec.parse id = .error err) :=
  ⟨rfl, execute_grants_all_or_none demoCodec demoEnv⟩

end Dela.Access
