import NetBase.Config.Typed

/-!
# Answers that last

What the calls on a configuration answer over time. `getIfExists` remembers the default of a key
that was not found, and `get` looks there first. Both classes look a key up before they convert
its value, so whether a key is found does not depend on the type asked for (`KeyOnly`): no default
ever covers a key of the document, and what has been answered once is answered again.
-/

namespace NetBase.Config

open Lib

variable {τ : Type} [DecidableEq τ] {V : τ → Type} {read : Read V} {miss miss' : MissMap V}

/-- What a call returns. -/
def answer (read : Read V) (miss : MissMap V) : (call : Call V) → Except Thrown (V call.type)
  | .get t key => get read miss t key
  | .getIfExists t key default => (getIfExists read miss t key default).1

/-- Whether a key is found does not depend on the type. -/
def KeyOnly (read : Read V) : Prop :=
  ∀ key t t', read t key = .error .keyNotFound → read t' key = .error .keyNotFound

omit [DecidableEq τ] in
theorem keyOnly_json (lib : JsonLib V) (root : Doc) : KeyOnly (jsonRead lib root) := by
  intro key t t' h
  cases hd : root.at? (pieces key) with
  | none => exact jsonRead_none hd
  | some d =>
    rw [jsonRead_some hd] at h
    split at h <;> cases h

omit [DecidableEq τ] in
theorem keyOnly_yaml {N : Type} (lib : YamlLib N V) (root : N) : KeyOnly (yamlRead lib root) := by
  intro key t t' h
  unfold yamlRead at h ⊢
  revert h
  cases switchPath key with
  | none => exact fun _ => rfl
  | some path =>
    dsimp only
    cases lib.chain root path with
    | error e => cases e <;> simp
    | ok node =>
      cases hn : lib.isNull node with
      | true => simp [hn]
      | false =>
        simp only [hn, Bool.false_eq_true, if_false]
        cases lib.as t node with
        | ok v => simp
        | error e => cases e <;> simp

/-- Every remembered default is one of a key that is not found. -/
def Missing (read : Read V) (miss : MissMap V) : Prop :=
  ∀ key a t, miss.lookup key = some a → read t key = .error .keyNotFound

/-- What a call does to the remembered defaults: nothing, or it adds one of a key that has none and
is not found. -/
theorem step_cases {call : Call V} (h : step read miss call = some miss') :
    miss' = miss ∨ ∃ t key default, call = .getIfExists t key default ∧
      miss.lookup key = none ∧ read t key = .error .keyNotFound ∧
      miss' = (key, ⟨t, default⟩) :: miss := by
  cases call with
  | get t key =>
    cases h
    exact .inl rfl
  | getIfExists t key default =>
    cases h
    cases hg : get read miss t key with
    | ok v => exact .inl (by simp [getIfExists, hg])
    | error e =>
      cases e with
      | keyNotFound =>
        refine .inr ⟨t, key, default, rfl, ?_⟩
        unfold get at hg
        cases hl : miss.lookup key with
        | none =>
          rw [hl] at hg
          refine ⟨rfl, hg, ?_⟩
          rw [getIfExists_of_missing (by unfold get; rw [hl]; exact hg)]
        | some a =>
          rw [hl] at hg
          simp only [anyCast] at hg
          split at hg <;> cases hg
      | convertFailed => exact .inl (by simp [getIfExists, hg])
      | badAnyCast => exact .inl (by simp [getIfExists, hg])
      | json e => exact .inl (by simp [getIfExists, hg])
      | yaml e => exact .inl (by simp [getIfExists, hg])

theorem step_missing (hread : KeyOnly read) {call : Call V} (hm : Missing read miss)
    (h : step read miss call = some miss') : Missing read miss' := by
  rcases step_cases h with rfl | ⟨t, key, default, -, -, hr, rfl⟩
  · exact hm
  · intro k a t' hk
    rw [List.lookup_cons] at hk
    split at hk
    · rename_i hkk
      rw [beq_iff_eq] at hkk
      subst hkk
      exact hread k t t' hr
    · exact hm k a t' hk

/-- A remembered default stays. -/
theorem step_lookup {call : Call V} {key : String} {a : Any V} (hk : miss.lookup key = some a)
    (h : step read miss call = some miss') : miss'.lookup key = some a := by
  rcases step_cases h with rfl | ⟨t, key', default, -, hn, -, rfl⟩
  · exact hk
  · have hne : (key == key') = false := by
      rw [beq_eq_false_iff_ne]
      rintro rfl
      rw [hn] at hk
      cases hk
    rw [List.lookup_cons, hne]
    exact hk

/-- How a value came about. -/
theorem answer_ok {call : Call V} {v : V call.type} (h : answer read miss call = .ok v)
    (hs : step read miss call = some miss') :
    (∃ a, miss'.lookup call.key = some a ∧ anyCast call.type a = .ok v) ∨
      miss.lookup call.key = none ∧ read call.type call.key = .ok v := by
  have hget : ∀ t key w, get read miss t key = .ok w →
      (∃ a, miss.lookup key = some a ∧ anyCast t a = .ok w) ∨
        miss.lookup key = none ∧ read t key = .ok w := by
    intro t key w hw
    unfold get at hw
    cases hl : miss.lookup key with
    | none => rw [hl] at hw; exact .inr ⟨rfl, hw⟩
    | some a => rw [hl] at hw; exact .inl ⟨a, rfl, hw⟩
  cases call with
  | get t key =>
    cases hs
    exact hget t key v h
  | getIfExists t key default =>
    have h' : @Eq (Except Thrown (V t)) (getIfExists read miss t key default).1 (.ok v) := h
    rcases step_cases hs with rfl | ⟨t', key', default', hc, hl, hr, rfl⟩
    · have hg : get read miss' t key = .ok v := by
        cases hg : get read miss' t key with
        | ok w => simpa [getIfExists, hg] using h'
        | error e =>
          cases e with
          | keyNotFound =>
            -- the defaults would have grown
            simp [step, getIfExists_of_missing hg] at hs
          | convertFailed => simp [getIfExists, hg] at h'
          | badAnyCast => simp [getIfExists, hg] at h'
          | json e => simp [getIfExists, hg] at h'
          | yaml e => simp [getIfExists, hg] at h'
      exact hget t key v hg
    · cases hc
      have hg : get read miss t key = .error .keyNotFound := by unfold get; rw [hl]; exact hr
      rw [getIfExists_of_missing hg] at h'
      have hv : default = v := Except.ok.inj h'
      exact .inl ⟨⟨t, default⟩, List.lookup_cons_self, by rw [hv]; exact anyCast_self v⟩

theorem answer_of_get {call : Call V} {v : V call.type}
    (h : get read miss call.type call.key = .ok v) : answer read miss call = .ok v := by
  cases call with
  | get t key => exact h
  | getIfExists t key default =>
    show @Eq (Except Thrown (V t)) (getIfExists read miss t key default).1 (.ok v)
    have h' : @Eq (Except Thrown (V t)) (get read miss t key) (.ok v) := h
    simp only [getIfExists, h']

/-- What holds of all the answers of a configuration. -/
structure Lasting (read : Read V) : Prop where
  /-- A value answered once is answered by every later call for the same key and type. -/
  again : ∀ pre c mid miss miss', run (step read) [] pre = some miss →
    run (step read) miss (c :: mid) = some miss' → ∀ v, answer read miss c = .ok v →
      ∀ (c' : Call V) (ht : c'.type = c.type), c'.key = c.key → answer read miss' c' = .ok (ht ▸ v)
  /-- A key that is found is never covered by a default. -/
  found : ∀ calls miss, run (step read) [] calls = some miss → ∀ t key,
    read t key ≠ .error .keyNotFound → get read miss t key = read t key

theorem lasting (hread : KeyOnly read) : Lasting read := by
  have hmiss : ∀ calls m m', Missing read m → run (step read) m calls = some m' →
      Missing read m' := fun _ _ _ hm hr => run_inv (fun _ _ _ => step_missing hread) hm hr
  have hinit : Missing read [] := fun key a t h => by simp at h
  refine ⟨fun pre c mid m m' hpre hrun v hv c' ht hk => ?_, fun calls m hr t key hne => ?_⟩
  · obtain ⟨m₁, hs, hmid⟩ := run_cons_inv hrun
    have hm₁ := step_missing hread (hmiss pre _ _ hinit hpre) hs
    apply answer_of_get
    rw [hk]
    revert ht
    generalize c'.type = u
    rintro rfl
    rcases answer_ok hv hs with ⟨a, ha, hcast⟩ | ⟨-, hr⟩
    · have hl := run_inv (I := fun n : MissMap V => n.lookup c.key = some a)
        (fun _ _ _ => step_lookup) ha hmid
      unfold get
      rw [hl]
      exact hcast
    · have hm' := hmiss mid _ _ hm₁ hmid
      have hl : m'.lookup c.key = none := by
        cases hl : m'.lookup c.key with
        | none => rfl
        | some a =>
          have := hm' _ a c.type hl
          rw [hr] at this
          cases this
      unfold get
      rw [hl]
      exact hr
  · have hm := hmiss calls _ _ hinit hr
    unfold get
    cases hl : m.lookup key with
    | none => rfl
    | some a => exact absurd (hm key a t hl) hne

/-- **Answers last.** Over every sequence of calls of `get` and `getIfExists` on a configuration of
either kind, whatever the libraries convert and throw. -/
theorem answers_last :
    (∀ (lib : JsonLib V) (root : Doc), Lasting (jsonRead lib root)) ∧
      ∀ (N : Type) (lib : YamlLib N V) (root : N), Lasting (yamlRead lib root) :=
  ⟨fun lib root => lasting (keyOnly_json lib root),
    fun _ lib root => lasting (keyOnly_yaml lib root)⟩

end NetBase.Config
