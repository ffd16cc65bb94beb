import Mathlib.Tactic
import Erascope.Erc20.Service

/-!
# Independence of the contracts

One fold serves all contracts at once, and an activity that throws stops it for all of them.
Apart from that the contracts do not see each other: an activity reads and writes rows of its
own contract only.

Results:
1. `process_contract`: the rows of a contract after a fold are those after the fold over its own
   activities.
2. `process_of_contracts`: the fold completes if it completes for each contract alone.
-/

namespace Erascope.Erc20

/-- Two ledgers with the same rows of one contract. -/
structure SameContract (x : String) (l m : Ledger) : Prop where
  balance : ∀ account, l.accountBalances.get? (account, x) = m.accountBalances.get? (account, x)
  contract : l.erc20Contracts.get? x = m.erc20Contracts.get? x

/-- The activities of one contract. -/
def ofContract (x : String) (acts : List JoinedActivity) : List JoinedActivity :=
  acts.filter fun a => a.erc20_contract_address = x

theorem SameContract.symm {x : String} {l m : Ledger} (h : SameContract x l m) :
    SameContract x m l :=
  ⟨fun account => (h.balance account).symm, h.contract.symm⟩

theorem SameContract.trans {x : String} {l m n : Ledger} (h : SameContract x l m)
    (h' : SameContract x m n) : SameContract x l n :=
  ⟨fun account => (h.balance account).trans (h'.balance account), h.contract.trans h'.contract⟩

theorem SameRows.sameContract {l m : Ledger} (h : SameRows l m) (x : String) :
    SameContract x l m :=
  ⟨fun account => h.balance (account, x), h.contract x⟩

namespace IndependenceLemmas

open HandlerLemmas ServiceLemmas

theorem ofContract_cons_self {a : JoinedActivity} {acts : List JoinedActivity} {x : String}
    (hx : a.erc20_contract_address = x) : ofContract x (a :: acts) = a :: ofContract x acts :=
  List.filter_cons_of_pos (decide_eq_true hx)

theorem ofContract_cons_ne {a : JoinedActivity} {acts : List JoinedActivity} {x : String}
    (hx : a.erc20_contract_address ≠ x) : ofContract x (a :: acts) = ofContract x acts :=
  List.filter_cons_of_neg (by simpa using hx)

/-- An activity leaves the other contracts alone. -/
theorem processActivity_frame {a : JoinedActivity} {l l' : Ledger} {x : String}
    (hx : a.erc20_contract_address ≠ x) (h : processActivity l a = .ok l') :
    SameContract x l' l := by
  refine ⟨fun account => ?_, ?_⟩
  · rw [balance_processActivity h, bumpBalance, if_neg]
    exact fun htouch => hx (touches_contract htouch)
  · rw [contract_processActivity h, bumpContract, if_neg]
    exact fun hz => hx hz.2.1

/-- An activity depends on the rows of its contract alone. -/
theorem processActivity_sameContract {a : JoinedActivity} {l m : Ledger}
    (h : SameContract a.erc20_contract_address l m) :
    ExceptRel (SameContract a.erc20_contract_address) (processActivity l a)
      (processActivity m a) := by
  refine processActivity_rel (fun l m h => h.balance _) (fun l m h => h.balance _)
    (fun l m h => h.contract) (fun l m b h => ⟨fun account => ?_, h.contract⟩)
    (fun l m c h => ⟨h.balance, ?_⟩) h
  · simp only [Table.get?_upsert, h.balance]
  · simp only [Table.get?_upsert, h.contract]

/-- The fold over the activities of a contract depends on its rows alone. -/
theorem process_sameContract (acts : List JoinedActivity) {x : String} {l m : Ledger}
    (h : SameContract x l m) :
    ExceptRel (SameContract x) (process (ofContract x acts) l) (process (ofContract x acts) m) := by
  refine foldlM_rel (fun l m a ha h => ?_) h
  obtain rfl : a.erc20_contract_address = x := of_decide_eq_true (List.mem_filter.mp ha).2
  exact processActivity_sameContract h

end IndependenceLemmas

open IndependenceLemmas

/-- The rows of a contract after a fold are those after the fold over its own activities. -/
theorem process_contract {acts : List JoinedActivity} {l l' : Ledger}
    (h : process acts l = .ok l') (x : String) :
    ∃ m, process (ofContract x acts) l = .ok m ∧ SameContract x l' m := by
  induction acts generalizing l with
  | nil =>
    cases h
    exact ⟨_, rfl, fun _ => rfl, rfl⟩
  | cons a acts ih =>
    obtain ⟨l₁, hfirst, hrest⟩ := foldlM_cons_ok h
    obtain ⟨m, hm, hsame⟩ := ih hrest
    by_cases hx : a.erc20_contract_address = x
    · refine ⟨m, ?_, hsame⟩
      rw [ofContract_cons_self hx, process, List.foldlM_cons, hfirst]
      exact hm
    · rw [ofContract_cons_ne hx]
      have hrel := process_sameContract acts (processActivity_frame hx hfirst)
      rw [hm] at hrel
      obtain ⟨m', hm', hsame'⟩ := hrel.of_ok
      exact ⟨m', hm', hsame.trans hsame'⟩

/-- The fold completes if it completes for each contract alone. -/
theorem process_of_contracts {acts : List JoinedActivity} {l : Ledger}
    (h : ∀ x, ∃ m, process (ofContract x acts) l = .ok m) : ∃ l', process acts l = .ok l' := by
  induction acts generalizing l with
  | nil => exact ⟨l, rfl⟩
  | cons a acts ih =>
    obtain ⟨m, hm⟩ := h a.erc20_contract_address
    rw [ofContract_cons_self rfl] at hm
    obtain ⟨l₁, hfirst, hrest⟩ := foldlM_cons_ok hm
    obtain ⟨l', hl'⟩ : ∃ l', process acts l₁ = .ok l' := by
      refine ih fun x => ?_
      by_cases hx : a.erc20_contract_address = x
      · subst hx
        exact ⟨m, hrest⟩
      · -- the other contracts have not seen the first activity
        obtain ⟨n, hn⟩ := h x
        rw [ofContract_cons_ne hx] at hn
        have hrel := process_sameContract acts (processActivity_frame hx hfirst).symm
        rw [hn] at hrel
        obtain ⟨n', hn', -⟩ := hrel.of_ok
        exact ⟨n', hn'⟩
    refine ⟨l', ?_⟩
    rw [process, List.foldlM_cons, hfirst]
    exact hl'

end Erascope.Erc20
