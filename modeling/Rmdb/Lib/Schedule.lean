import Mathlib.Data.List.Basic
import Mathlib.Logic.Relation

namespace Rmdb.Lib

/-!
# Histories and conflict serializability

A history lists what the transactions of a system did: accesses to shared data, releases of locks,
commits and aborts.  Over an arbitrary conflict relation on the accesses:

* `Precedes h t₁ t₂` is the edge of the conflict graph: some access of `t₁` conflicts with a later
  one of `t₂`;
* `StrictTwoPhase` collects what strict two-phase locking with a serialized commit gives for a
  history; `StrictTwoPhase.snoc` says when an event may extend it;
* `StrictTwoPhase.commit_order` — edges between committed transactions follow the order of the
  commits, and hence (`StrictTwoPhase.acyclic`) their conflict graph has no cycle.
-/

variable {T A : Type*}

/-- One event of a history. -/
inductive Event (T A : Type*) where
  /-- `t` performs the access `a`. -/
  | access (t : T) (a : A)
  /-- `t` releases one of its locks. -/
  | release (t : T)
  /-- `t` has committed. -/
  | commit (t : T)
  /-- `t` has aborted. -/
  | abort (t : T)
  deriving DecidableEq, Repr

/-- A history, oldest event first. -/
abbrev History (T A : Type*) := List (Event T A)

/-- An event at a position of an extended history is an old one or the new one. -/
theorem getElem?_snoc {α : Type*} (l : List α) (e x : α) (i : ℕ) :
    (l ++ [e])[i]? = some x ↔ l[i]? = some x ∨ (i = l.length ∧ x = e) := by
  rw [List.getElem?_append]
  by_cases h : i < l.length
  · rw [if_pos h]
    constructor
    · exact Or.inl
    · rintro (h' | ⟨rfl, -⟩)
      · exact h'
      · omega
  · rw [if_neg h, List.getElem?_singleton]
    have hnone : l[i]? = none := List.getElem?_eq_none (by omega)
    rw [hnone]
    by_cases hi : i = l.length
    · subst hi
      simp [eq_comm]
    · have : ¬ i - l.length = 0 := by omega
      simp [this, hi]

/-- A position that holds an event is inside the history. -/
theorem lt_length_of_getElem? {α : Type*} {l : List α} {i : ℕ} {x : α} (h : l[i]? = some x) :
    i < l.length := (List.getElem?_eq_some_iff.mp h).1

/-- The edge of the conflict graph. -/
def Precedes (conflict : A → A → Prop) (h : History T A) (t₁ t₂ : T) : Prop :=
  t₁ ≠ t₂ ∧ ∃ (i j : ℕ) (a b : A), i < j ∧ h[i]? = some (Event.access t₁ a) ∧
    h[j]? = some (Event.access t₂ b) ∧ conflict a b

/-- The transaction has committed. -/
def Committed (h : History T A) (t : T) : Prop :=
  ∃ c : ℕ, h[c]? = some (Event.commit t)

/-- The conflict graph of the committed transactions. -/
def CommittedPrecedes (conflict : A → A → Prop) (h : History T A) (t₁ t₂ : T) : Prop :=
  Committed h t₁ ∧ Committed h t₂ ∧ Precedes conflict h t₁ t₂

/-- What strict two-phase locking guarantees of a history. -/
structure StrictTwoPhase (conflict : A → A → Prop) (h : History T A) : Prop where
  /-- Between two conflicting accesses the first transaction has released a lock. -/
  separated : ∀ (i j : ℕ) (t₁ t₂ : T) (a b : A), i < j → h[i]? = some (Event.access t₁ a) →
    h[j]? = some (Event.access t₂ b) → t₁ ≠ t₂ → conflict a b →
    ∃ k : ℕ, i < k ∧ k < j ∧ h[k]? = some (Event.release t₁)
  /-- A transaction releases nothing before its last access. -/
  growing : ∀ (j k : ℕ) (t : T) (a : A), h[j]? = some (Event.access t a) →
    h[k]? = some (Event.release t) → j < k
  /-- A transaction commits after its last access. -/
  access_commit : ∀ (j c : ℕ) (t : T) (a : A), h[j]? = some (Event.access t a) →
    h[c]? = some (Event.commit t) → j < c
  /-- From its first release to its commit no other transaction commits. -/
  exclusive : ∀ (k c m : ℕ) (t t' : T), t' ≠ t → h[k]? = some (Event.release t) →
    h[c]? = some (Event.commit t) → h[m]? = some (Event.commit t') → k < m → c < m

namespace StrictTwoPhase

variable {conflict : A → A → Prop} {h : History T A}

/-- **Serialization order.** Edges between committed transactions follow their commits. -/
theorem commit_order (hs : StrictTwoPhase conflict h) {t₁ t₂ : T} {c₁ c₂ : ℕ}
    (h₁ : h[c₁]? = some (Event.commit t₁)) (h₂ : h[c₂]? = some (Event.commit t₂))
    (hp : Precedes conflict h t₁ t₂) : c₁ < c₂ := by
  obtain ⟨hne, i, j, a, b, hij, hi, hj, hc⟩ := hp
  obtain ⟨k, hik, hkj, hk⟩ := hs.separated i j t₁ t₂ a b hij hi hj hne hc
  have hjc : j < c₂ := hs.access_commit j c₂ t₂ b hj h₂
  exact hs.exclusive k c₁ c₂ t₁ t₂ (Ne.symm hne) hk h₁ h₂ (by omega)

/-- The conflict graph of the committed transactions is acyclic. -/
theorem acyclic (hs : StrictTwoPhase conflict h) (t : T) :
    ¬ Relation.TransGen (CommittedPrecedes conflict h) t t := by
  -- a path moves the commit position forward, whichever positions one picks
  have hlt : ∀ {t₁ t₂ : T}, Relation.TransGen (CommittedPrecedes conflict h) t₁ t₂ →
      ∀ c₁ c₂ : ℕ, h[c₁]? = some (Event.commit t₁) → h[c₂]? = some (Event.commit t₂) → c₁ < c₂ := by
    intro t₁ t₂ hp
    induction hp with
    | single hp => exact fun c₁ c₂ h₁ h₂ => hs.commit_order h₁ h₂ hp.2.2
    | tail _ hp ih =>
      intro c₁ c₂ h₁ h₂
      obtain ⟨⟨c, hc⟩, -, hp⟩ := hp
      exact Nat.lt_trans (ih c₁ c h₁ hc) (hs.commit_order hc h₂ hp)
  intro hcyc
  have hcom : Committed h t := by
    rcases Relation.TransGen.head'_iff.mp hcyc with ⟨_, hp, -⟩
    exact hp.1
  obtain ⟨c, hc⟩ := hcom
  exact Nat.lt_irrefl c (hlt hcyc c c hc hc)

/-! ### Extending a history -/

/-- The empty history. -/
theorem nil : StrictTwoPhase conflict ([] : History T A) where
  separated := by simp
  growing := by simp
  access_commit := by simp
  exclusive := by simp

/-- What an event needs to extend a history: before an access of `t`, neither a release nor a
    commit of `t`, and a release of each earlier conflicting transaction; before a release of `t`
    no commit of `t`; before a commit of `t` no other commit after the first release of `t`. -/
def MayFollow (conflict : A → A → Prop) (h : History T A) : Event T A → Prop
  | .access t b =>
    (∀ k : ℕ, h[k]? ≠ some (Event.release t)) ∧ (∀ c : ℕ, h[c]? ≠ some (Event.commit t)) ∧
      ∀ (i : ℕ) (t₁ : T) (a : A), h[i]? = some (Event.access t₁ a) → t₁ ≠ t → conflict a b →
        ∃ k : ℕ, i < k ∧ h[k]? = some (Event.release t₁)
  | .release t => ∀ c : ℕ, h[c]? ≠ some (Event.commit t)
  | .commit t => ∀ (k m : ℕ) (t' : T), h[k]? = some (Event.release t) →
      h[m]? = some (Event.commit t') → t' ≠ t → m < k
  | .abort _ => True

/-- **The extension rule.** -/
theorem snoc (hs : StrictTwoPhase conflict h) {e : Event T A} (he : MayFollow conflict h e) :
    StrictTwoPhase conflict (h ++ [e]) where
  separated := by
    intro i j t₁ t₂ a b hij hi hj hne hc
    rw [getElem?_snoc] at hi hj
    -- the earlier access is an old event, since something follows it
    have hi' : h[i]? = some (Event.access t₁ a) := by
      rcases hi with hi | ⟨rfl, -⟩
      · exact hi
      · rcases hj with hj | ⟨rfl, -⟩
        · have := lt_length_of_getElem? hj
          omega
        · omega
    rcases hj with hj | ⟨rfl, rfl⟩
    · obtain ⟨k, h1, h2, h3⟩ := hs.separated i j t₁ t₂ a b hij hi' hj hne hc
      exact ⟨k, h1, h2, (getElem?_snoc ..).mpr (Or.inl h3)⟩
    · obtain ⟨k, h1, h2⟩ := he.2.2 i t₁ a hi' hne hc
      exact ⟨k, h1, lt_length_of_getElem? h2, (getElem?_snoc ..).mpr (Or.inl h2)⟩
  growing := by
    intro j k t a hj hk
    rw [getElem?_snoc] at hj hk
    rcases hj with hj | ⟨rfl, rfl⟩
    · rcases hk with hk | ⟨rfl, -⟩
      · exact hs.growing j k t a hj hk
      · exact lt_length_of_getElem? hj
    · rcases hk with hk | ⟨-, hk⟩
      · exact absurd hk (he.1 k)
      · cases hk
  access_commit := by
    intro j c t a hj hc
    rw [getElem?_snoc] at hj hc
    rcases hj with hj | ⟨rfl, rfl⟩
    · rcases hc with hc | ⟨rfl, -⟩
      · exact hs.access_commit j c t a hj hc
      · exact lt_length_of_getElem? hj
    · rcases hc with hc | ⟨-, hc⟩
      · exact absurd hc (he.2.1 c)
      · cases hc
  exclusive := by
    intro k c m t t' hne hk hc hm hkm
    rw [getElem?_snoc] at hk hc hm
    -- the release is old, since a commit follows it
    have hk' : h[k]? = some (Event.release t) := by
      rcases hk with hk | ⟨rfl, -⟩
      · exact hk
      · rcases hm with hm | ⟨rfl, -⟩
        · have := lt_length_of_getElem? hm
          omega
        · omega
    rcases hc with hc | ⟨rfl, rfl⟩
    · rcases hm with hm | ⟨rfl, -⟩
      · exact hs.exclusive k c m t t' hne hk' hc hm hkm
      · exact lt_length_of_getElem? hc
    · rcases hm with hm | ⟨-, hm⟩
      · have := he k m t' hk' hm hne
        omega
      · cases hm
        exact absurd rfl hne

end StrictTwoPhase

end Rmdb.Lib
