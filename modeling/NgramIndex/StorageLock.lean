import Mathlib.Data.Finset.Basic

/- A lock with shared keys and one exclusive key. The owner of the only shared key may
   upgrade it, and nobody takes a shared key while the exclusive one is out. -/
namespace StorageLock
variable {Owner : Type*}

/-- Each owner takes one shared key at most. -/
structure Lock (Owner : Type*) where
  shared : Finset Owner
  exclusive : Option Owner
  alone : ∀ owner ∈ exclusive, ∀ other ∈ shared, other = owner
  deriving DecidableEq

namespace Lock

def free : Lock Owner := ⟨∅, none, by simp⟩

def releaseExclusive (l : Lock Owner) : Lock Owner := ⟨l.shared, none, by simp⟩

@[simp] theorem releaseExclusive_shared (l : Lock Owner) : l.releaseExclusive.shared = l.shared := rfl

@[simp] theorem releaseExclusive_exclusive (l : Lock Owner) : l.releaseExclusive.exclusive = none := rfl

/-- Next to an exclusive key there is no shared key of another owner. -/
theorem shared_alone {l : Lock Owner} {owner other : Owner} (out : l.exclusive = some owner)
    (held : other ∈ l.shared) : other = owner :=
  l.alone owner out other held

variable [DecidableEq Owner]

/-- The owner waits while the exclusive key is out. -/
def getShared (l : Lock Owner) (owner : Owner) : Option (Lock Owner) :=
  if l.exclusive = none then some ⟨insert owner l.shared, none, by simp⟩ else none

def tryUpgrade (l : Lock Owner) (owner : Owner) : Option (Lock Owner) :=
  if l.exclusive = none ∧ l.shared = {owner} then some ⟨{owner}, some owner, by simp⟩ else none

def tryExclusive (l : Lock Owner) (owner : Owner) : Option (Lock Owner) :=
  if l.exclusive = none ∧ l.shared = ∅ then some ⟨∅, some owner, by simp⟩ else none

def releaseShared (l : Lock Owner) (owner : Owner) : Lock Owner :=
  ⟨l.shared.erase owner, l.exclusive, fun holder out other kept => l.alone holder out other (Finset.mem_of_mem_erase kept)⟩

variable {l k : Lock Owner} {owner : Owner}

theorem getShared_spec (granted : l.getShared owner = some k) :
    l.exclusive = none ∧ k.shared = insert owner l.shared ∧ k.exclusive = none := by
  rw [getShared, Option.ite_none_right_eq_some] at granted
  obtain ⟨unlocked, same⟩ := granted
  cases same
  exact ⟨unlocked, rfl, rfl⟩

theorem tryUpgrade_spec (granted : l.tryUpgrade owner = some k) :
    l.exclusive = none ∧ l.shared = {owner} ∧ k.shared = l.shared ∧ k.exclusive = some owner := by
  rw [tryUpgrade, Option.ite_none_right_eq_some] at granted
  obtain ⟨⟨unlocked, only⟩, same⟩ := granted
  cases same
  exact ⟨unlocked, only, only.symm, rfl⟩

theorem tryExclusive_spec (granted : l.tryExclusive owner = some k) : l.exclusive = none ∧ l.shared = ∅ := by
  rw [tryExclusive, Option.ite_none_right_eq_some] at granted
  exact granted.1

@[simp] theorem releaseShared_shared : (l.releaseShared owner).shared = l.shared.erase owner := rfl

@[simp] theorem releaseShared_exclusive : (l.releaseShared owner).exclusive = l.exclusive := rfl

end Lock

end StorageLock
