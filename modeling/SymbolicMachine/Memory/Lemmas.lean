import SymbolicMachine.Memory.Dense
import SymbolicMachine.Word.Lemmas

namespace SymbolicMachine
namespace DenseMemory

/-!
# Joint addresses

A merge gathers the addresses of both memories.  Nothing that was gathered is dropped, nothing
else is gathered, and an address is passed over only if a recognisably identical one is there.
-/

variable {gathered addresses : List Word} {address : Word}

theorem gather_of_known
    (known : (gathered.any fun other => other.identical address) = true) :
    gather gathered address = gathered :=
  if_pos known

theorem gather_of_unknown
    (unknown : (gathered.any fun other => other.identical address) = false) :
    gather gathered address = gathered ++ [address] := by
  rw [gather, unknown]
  rfl

/-- Gathering an address keeps what is there and leads to an identical one being there. -/
theorem gather_cases (gathered : List Word) (address : Word) :
    (∃ known ∈ gathered, known.identical address = true) ∧ gather gathered address = gathered ∨
      gather gathered address = gathered ++ [address] := by
  cases known : gathered.any fun other => other.identical address with
  | true => exact .inl ⟨List.any_eq_true.mp known, gather_of_known known⟩
  | false => exact .inr (gather_of_unknown known)

theorem mem_foldl_gather_of_mem (member : address ∈ gathered) :
    address ∈ addresses.foldl gather gathered := by
  induction addresses generalizing gathered with
  | nil => exact member
  | cons first rest ih =>
      apply ih
      rcases gather_cases gathered first with ⟨_, same⟩ | added
      · rwa [same]
      · rw [added]
        exact List.mem_append_left _ member

theorem mem_of_mem_foldl_gather (member : address ∈ addresses.foldl gather gathered) :
    address ∈ gathered ∨ address ∈ addresses := by
  induction addresses generalizing gathered with
  | nil => exact .inl member
  | cons first rest ih =>
      rcases ih member with here | later
      · rcases gather_cases gathered first with ⟨_, same⟩ | added
        · rw [same] at here
          exact .inl here
        · rw [added, List.mem_append, List.mem_singleton] at here
          rcases here with before | rfl
          · exact .inl before
          · exact .inr List.mem_cons_self
      · exact .inr (List.mem_cons_of_mem _ later)

theorem exists_identical_foldl_gather (member : address ∈ addresses) :
    ∃ known ∈ addresses.foldl gather gathered, known.identical address = true := by
  induction addresses generalizing gathered with
  | nil => cases member
  | cons first rest ih =>
      rcases List.mem_cons.mp member with rfl | later
      · rcases gather_cases gathered address with ⟨⟨known, there, same⟩, kept⟩ | added
        · rw [List.foldl_cons, kept]
          exact ⟨known, mem_foldl_gather_of_mem there, same⟩
        · rw [List.foldl_cons, added]
          have there : address ∈ gathered ++ [address] :=
            List.mem_append_right _ List.mem_cons_self
          exact ⟨address, mem_foldl_gather_of_mem there, address.identical_refl⟩
      · exact ih later

/-- Addresses that are all known add nothing. -/
theorem foldl_gather_of_known
    (known : ∀ address ∈ addresses, (gathered.any fun other => other.identical address) = true) :
    addresses.foldl gather gathered = gathered := by
  induction addresses with
  | nil => rfl
  | cons first rest ih =>
      rw [List.foldl_cons, gather_of_known (known first List.mem_cons_self)]
      exact ih fun address member => known address (List.mem_cons_of_mem _ member)

variable {whenTrue whenFalse : DenseMemory}

theorem mem_jointAddresses_of_mem_touched (member : address ∈ whenTrue.touched) :
    address ∈ jointAddresses whenTrue whenFalse :=
  mem_foldl_gather_of_mem member

theorem mem_touched_of_mem_jointAddresses (member : address ∈ jointAddresses whenTrue whenFalse) :
    address ∈ whenTrue.touched ∨ address ∈ whenFalse.touched :=
  mem_of_mem_foldl_gather member

theorem exists_identical_jointAddresses (member : address ∈ whenFalse.touched) :
    ∃ known ∈ jointAddresses whenTrue whenFalse, known.identical address = true :=
  exists_identical_foldl_gather member

end DenseMemory
end SymbolicMachine
