import Mathlib.Tactic
import Erascope.Cw721.Step

/-!
# Reading owners from the final tokens

A history that is replayed page by page against the tokens it ends with. The handlers skip the
events below the height of a token, so a transfer reads the final owner of its token, unless the
owner was set on the same page at the last height of the token (`ReadsOwner`).

Results:
1. `readsOwner_iff`: an event reads the owner of the chain exactly then.
2. `pagesRead_iff`: all pages have the activities of the history exactly if all their events do.
-/

namespace Erascope.Cw721

open ReplayLemmas RangeLemmas HistoryLemmas StepLemmas

/-! ## 1. What an event reads -/

/-- The events that give a token its owner. -/
def SmartContractEvent.setsOwner (msg : SmartContractEvent) : Bool :=
  match msg.action with
  | .mint | .transferNft | .sendNft => true
  | .burn | .instantiate | .other _ => false

/-- An event that moves a token reads the owner that it read first, on the page `msgs` after the
events `earlier`. If the page loads the token, its owner was set on the page at the last height of
the token, or is the final one; otherwise the token was minted on the page, or it had no owner and
is not burned. -/
def ReadsOwner (events before msgs earlier : List SmartContractEvent) (msg : SmartContractEvent) :
    Prop :=
  if loaded msgs msg.key then
    (∃ x ∈ earlier, x.setsOwner = true ∧ x.key = msg.key ∧
      ∀ y ∈ events, y.touches = true → y.key = msg.key → y.height ≤ x.height) ∨
    ownerAfter (before ++ earlier) msg.key = ownerAfter events msg.key
  else
    (∃ x ∈ earlier, x.action = .mint ∧ x.key = msg.key) ∨
    (msg.action ≠ .burn ∧ ownerAfter (before ++ earlier) msg.key = none)

instance (events before msgs earlier : List SmartContractEvent) (msg : SmartContractEvent) :
    Decidable (ReadsOwner events before msgs earlier msg) :=
  inferInstanceAs (Decidable (if loaded msgs msg.key = true then _ ∨ _ else _ ∨ _))

/-- The events of a page, after the events of the pages before it. -/
def PageReads (tracked : String → Bool) (events before msgs : List SmartContractEvent) : Prop :=
  ∀ (i : ℕ) (h : i < msgs.length), tracked msgs[i].contractAddress = true → msgs[i].moves = true →
    ReadsOwner events before msgs (msgs.take i) msgs[i]

instance (tracked : String → Bool) (events before msgs : List SmartContractEvent) :
    Decidable (PageReads tracked events before msgs) :=
  inferInstanceAs (Decidable (∀ (i : ℕ) (_ : i < msgs.length), _))

/-- All pages, one after the other. -/
def PagesRead (tracked : String → Bool) (events : List SmartContractEvent) :
    List SmartContractEvent → List (List SmartContractEvent) → Prop
  | _, [] => True
  | before, msgs :: ps =>
    PageReads tracked events before msgs ∧ PagesRead tracked events (before ++ msgs) ps

instance PagesRead.decidable (tracked : String → Bool) (events : List SmartContractEvent) :
    ∀ before ps, Decidable (PagesRead tracked events before ps)
  | _, [] => inferInstanceAs (Decidable True)
  | before, msgs :: ps =>
    have := PagesRead.decidable tracked events (before ++ msgs) ps
    inferInstanceAs (Decidable (_ ∧ _))

/-! ## 2. Against the final tokens -/

namespace ReadOwnerLemmas

variable {contracts : List CW721Contract} {events before msgs earlier rest : List SmartContractEvent}
  {msg : SmartContractEvent} {tracked : String → Bool} {rows rows' : Rows} {k : String × String}

theorem setsOwner_touches (h : msg.setsOwner = true) : msg.touches = true := by
  revert h
  unfold SmartContractEvent.setsOwner SmartContractEvent.touches
  cases msg.action <;> simp

/-- An event below the height of a token does not change it. -/
theorem tokenAfter_of_lt {token : CW721Token} (h : msg.height < token.last_updated_height) :
    tokenAfter (some token) msg = some token := by
  have hguard : ¬ token.last_updated_height ≤ msg.height := Nat.not_le.mpr h
  cases haction : msg.action <;> simp [tokenAfter, haction, hguard]

/-- An event on a token gives the owner that it gives on chain. -/
theorem owner_of_setsOwner {token : CW721Token} (hsets : msg.setsOwner = true)
    (hguard : token.last_updated_height ≤ msg.height) (row : Option CW721Token)
    (hrow : msg.moves = true → row.isSome = true) :
    (tokenAfter (some token) msg).bind (·.owner) = (chainStep row msg).bind (·.owner) := by
  cases haction : msg.action with
  | mint => simp [tokenAfter, chainStep, haction, hguard]
  | transferNft =>
    obtain ⟨old, rfl⟩ := Option.isSome_iff_exists.mp (hrow (by simp [SmartContractEvent.moves, haction]))
    simp [tokenAfter, chainStep, haction, hguard]
  | sendNft =>
    obtain ⟨old, rfl⟩ := Option.isSome_iff_exists.mp (hrow (by simp [SmartContractEvent.moves, haction]))
    simp [tokenAfter, chainStep, haction, hguard]
  | burn => simp [SmartContractEvent.setsOwner, haction] at hsets
  | instantiate => simp [SmartContractEvent.setsOwner, haction] at hsets
  | other action => simp [SmartContractEvent.setsOwner, haction] at hsets

theorem owner_of_not_setsOwner (hsets : msg.setsOwner = false) (row : Option CW721Token) :
    (tokenAfter row msg).bind (·.owner) = row.bind (·.owner) ∧
      (chainStep row msg).bind (·.owner) = row.bind (·.owner) := by
  cases haction : msg.action <;> simp [SmartContractEvent.setsOwner, haction] at hsets
  · cases row with
    | none => simp [tokenAfter, chainStep, haction]
    | some token =>
      simp only [tokenAfter, chainStep, haction, Option.map_some, Option.bind_some, and_true]
      split <;> rfl
  · simp [tokenAfter, chainStep, haction]
  · simp [tokenAfter, chainStep, haction]

theorem height_tokenAfter {token token' : CW721Token}
    (hle : msg.touches = true → msg.height ≤ token.last_updated_height)
    (h : tokenAfter (some token) msg = some token') :
    token'.last_updated_height = token.last_updated_height := by
  by_cases htouches : msg.touches = true
  · rcases (hle htouches).lt_or_eq with hlt | heq
    · rw [tokenAfter_of_lt hlt] at h
      cases h
      rfl
    · rw [tokenAfter_eq_chainStep fun t ht => by cases ht; exact heq.ge] at h
      rw [height_of_chainStep htouches h, heq]
  · rw [tokenAfter_of_not_touches (Bool.eq_false_iff.mpr htouches)] at h
    cases h
    rfl

theorem replayRows_concat (htracked : tracked k.1 = true) :
    replayRows tracked rows (earlier ++ [msg]) k =
      if msg.key = k then tokenAfter (replayRows tracked rows earlier k) msg
      else replayRows tracked rows earlier k := by
  rw [replayRows_append]
  show stepRows tracked _ msg k = _
  unfold stepRows
  by_cases hkey : msg.key = k
  · subst hkey
    have hcontract : tracked msg.contractAddress = true := htracked
    rw [if_pos hcontract, Function.update_self, if_pos rfl]
  · rw [if_neg hkey]
    split
    · rw [Function.update_of_ne (Ne.symm hkey)]
    · rfl

theorem ownerAfter_concat : ownerAfter (before ++ [msg]) k =
    if msg.key = k then (chainStep (onChain before k) msg).bind (·.owner)
    else ownerAfter before k := by
  rw [ownerAfter, onChain_append_singleton]
  split <;> rfl

/-- A token that the page has loaded: its owner is the one of the chain once an event at its last
height has set it, and the final one before. -/
theorem owner_replayRows_loaded (hcons : Consistent contracts events)
    (hsplit : events = before ++ earlier ++ rest) (htracked : tracked k.1 = true)
    {last : CW721Token} (hlast : onChain events k = some last) (hrow : rows k = some last) :
    ∃ token, replayRows tracked rows earlier k = some token ∧
      token.last_updated_height = last.last_updated_height ∧
      ((∃ x ∈ earlier, x.setsOwner = true ∧ x.key = k ∧ last.last_updated_height ≤ x.height) ∧
          token.owner = ownerAfter (before ++ earlier) k ∨
        (¬ ∃ x ∈ earlier, x.setsOwner = true ∧ x.key = k ∧ last.last_updated_height ≤ x.height) ∧
          token.owner = last.owner) := by
  induction earlier using List.reverseRecOn generalizing rest with
  | nil => exact ⟨last, hrow, rfl, .inr ⟨by simp, rfl⟩⟩
  | append_singleton earlier x ih =>
    have hsplit' : events = before ++ earlier ++ x :: rest := by rw [hsplit]; simp
    obtain ⟨token, htoken, hheight, howner⟩ := ih hsplit'
    have hx : x ∈ events := by rw [hsplit']; simp
    have hstep : replayRows tracked rows (earlier ++ [x]) k =
        if x.key = k then tokenAfter (some token) x else some token := by
      rw [replayRows_concat htracked, htoken]
    have hexists : (∃ y ∈ earlier ++ [x], y.setsOwner = true ∧ y.key = k ∧
          last.last_updated_height ≤ y.height) ↔
        (∃ y ∈ earlier, y.setsOwner = true ∧ y.key = k ∧ last.last_updated_height ≤ y.height) ∨
          (x.setsOwner = true ∧ x.key = k ∧ last.last_updated_height ≤ x.height) := by
      simp only [List.mem_append, List.mem_singleton, or_and_right, exists_or, exists_eq_left]
    rw [hexists, ← List.append_assoc, ownerAfter_concat]
    by_cases hkey : x.key = k
    · have hle : x.touches = true → x.height ≤ token.last_updated_height := fun htouches =>
        hheight ▸ height_le_of_onChain (Consistent.heights hcons) hlast x hx htouches hkey
      obtain ⟨token', htoken'⟩ : ∃ token', tokenAfter (some token) x = some token' :=
        Option.isSome_iff_exists.mp (isSome_tokenAfter.mpr (.inl rfl))
      refine ⟨token', by rw [hstep, if_pos hkey, htoken'],
        (height_tokenAfter hle htoken').trans hheight, ?_⟩
      rw [if_pos hkey]
      cases hsets : x.setsOwner with
      | true =>
        rcases (hle (setsOwner_touches hsets)).lt_or_eq with hlt | heq
        · -- the event is skipped, and so were the events before it
          rw [tokenAfter_of_lt hlt] at htoken'
          cases htoken'
          have hnone : ¬ ∃ y ∈ earlier, y.setsOwner = true ∧ y.key = k ∧
              last.last_updated_height ≤ y.height := by
            rintro ⟨y, hy, -, -, hyHeight⟩
            have hsorted := Consistent.heights hcons
            rw [hsplit'] at hsorted
            have := (List.pairwise_append.mp hsorted).2.2 y (List.mem_append_right _ hy) x
              List.mem_cons_self
            omega
          have hbelow : ¬ last.last_updated_height ≤ x.height := by omega
          rcases howner with ⟨hsome, -⟩ | ⟨-, howner⟩
          · exact absurd hsome hnone
          · exact .inr ⟨by simp [hnone, hbelow], howner⟩
        · refine .inl ⟨.inr ⟨rfl, hkey, by omega⟩, ?_⟩
          have hmoved : x.moves = true → (onChain (before ++ earlier) k).isSome = true :=
            fun hmoves => Option.isSome_of_any (hkey ▸ Consistent.alive hcons hsplit' hmoves)
          have hnew := owner_of_setsOwner hsets heq.ge _ hmoved
          rw [htoken'] at hnew
          exact hnew
      | false =>
        obtain ⟨hsame, -⟩ := owner_of_not_setsOwner hsets (some token)
        obtain ⟨-, hsameChain⟩ := owner_of_not_setsOwner hsets (onChain (before ++ earlier) k)
        rw [htoken'] at hsame
        have hsame : token'.owner = token.owner := hsame
        rw [hsameChain, hsame]
        simpa [ownerAfter] using howner
    · refine ⟨token, by rw [hstep, if_neg hkey], hheight, ?_⟩
      rw [if_neg hkey]
      simpa [hkey] using howner

/-- A token that the page has not loaded starts with its mint on the page. -/
theorem owner_replayRows_new (hsorted : earlier.Pairwise fun a b => a.height ≤ b.height)
    (htracked : tracked k.1 = true) (hrow : rows k = none) :
    replayRows tracked rows earlier k = onChain earlier k := by
  rw [replayRows_apply (show rows k = noRows k from hrow), replayRows_onChain hsorted htracked]

/-- Two replays with the same activities read the same owners. -/
theorem map_store_replayActs_iff {known : String × String → Bool} :
    (replayActs tracked rows msgs).map (store known) =
        (replayActs tracked rows' msgs).map (store known) ↔
      ∀ earlier msg rest, msgs = earlier ++ msg :: rest → tracked msg.contractAddress = true →
        msg.moves = true → (replayRows tracked rows earlier msg.key).bind (·.owner) =
          (replayRows tracked rows' earlier msg.key).bind (·.owner) := by
  induction msgs generalizing rows rows' with
  | nil => simp [replayActs]
  | cons head msgs ih =>
    have hhead : ((if tracked head.contractAddress then [activityFor (rows head.key) head] else []).map
          (store known) =
        (if tracked head.contractAddress then [activityFor (rows' head.key) head] else []).map
          (store known)) ↔
        (tracked head.contractAddress = true → head.moves = true →
          (rows head.key).bind (·.owner) = (rows' head.key).bind (·.owner)) := by
      split
      · next htracked =>
        simp only [List.map_cons, List.map_nil, List.cons.injEq, and_true, htracked, true_imp_iff]
        cases haction : head.action <;>
          simp [store, activityFor, activityOf, haction, SmartContractEvent.moves]
      · next htracked => simp [htracked]
    rw [replayActs, replayActs, List.map_append, List.map_append]
    constructor
    · intro heq earlier msg rest hsplit
      obtain ⟨hfirst, hothers⟩ := List.append_inj heq (by split <;> rfl)
      cases earlier with
      | nil =>
        obtain ⟨rfl, rfl⟩ := List.cons.inj hsplit
        exact hhead.mp hfirst
      | cons first earlier =>
        obtain ⟨rfl, htail⟩ := List.cons.inj hsplit
        exact ih.mp hothers earlier msg rest htail
    · intro hall
      rw [hhead.mpr (hall [] head msgs rfl), ih.mpr fun earlier msg rest hsplit =>
        hall (head :: earlier) msg rest (by rw [hsplit]; rfl)]

/-- The last height of a token, in terms of its events. -/
theorem le_height_iff (hsorted : events.Pairwise fun a b => a.height ≤ b.height) {last : CW721Token}
    (hlast : onChain events k = some last) (height : ℕ) : last.last_updated_height ≤ height ↔
      ∀ y ∈ events, y.touches = true → y.key = k → y.height ≤ height := by
  constructor
  · intro hle y hy htouches hkey
    exact (height_le_of_onChain hsorted hlast y hy htouches hkey).trans hle
  · intro hall
    obtain ⟨y, hy, htouches, hkey, hheight⟩ := exists_height_of_onChain hlast
    rw [hheight]
    exact hall y hy htouches hkey

/-- What an event that moves a token reads on its page, against the final tokens. -/
theorem readsOwner_iff (hcons : Consistent contracts events)
    (hsplit : events = before ++ earlier ++ msg :: rest)
    (htracked : tracked msg.contractAddress = true) (hmoves : msg.moves = true) :
    ((msg.action = .burn →
        (replayRows tracked (loadedRows (onChain events) msgs) earlier msg.key).isSome = true) ∧
      (replayRows tracked (loadedRows (onChain events) msgs) earlier msg.key).bind (·.owner) =
        ownerAfter (before ++ earlier) msg.key) ↔
    ReadsOwner events before msgs earlier msg := by
  have hsorted := Consistent.heights hcons
  have halive := Consistent.alive hcons hsplit hmoves
  have hkey : tracked msg.key.1 = true := htracked
  rw [hsplit] at hsorted
  obtain ⟨hbefore, -, -⟩ := List.pairwise_append.mp hsorted
  rw [ReadsOwner]
  split
  · next hloaded =>
    have hmem : msg ∈ events := by rw [hsplit]; simp
    have htouches : msg.touches = true := by
      revert hmoves
      unfold SmartContractEvent.moves SmartContractEvent.touches
      cases msg.action <;> simp
    have hminted := minted_of_touches hcons hmem htracked htouches
    rw [← isSome_replayRows_noRows, replayRows_onChain (Consistent.heights hcons) hkey] at hminted
    obtain ⟨last, hlast⟩ := Option.isSome_iff_exists.mp hminted
    have hrow : loadedRows (onChain events) msgs msg.key = some last := by
      rw [loadedRows, if_pos hloaded, hlast]
    obtain ⟨token, htoken, -, howner⟩ :=
      owner_replayRows_loaded hcons hsplit hkey hlast hrow
    have hfinal : ownerAfter events msg.key = last.owner := by rw [ownerAfter, hlast]; rfl
    simp only [htoken, Option.isSome_some, implies_true, true_and, Option.bind_some, hfinal,
      ← le_height_iff (Consistent.heights hcons) hlast]
    rcases howner with ⟨hset, howner⟩ | ⟨hnot, howner⟩
    · simp only [howner, hset, true_or]
    · simp only [howner, hnot, false_or]
      exact eq_comm
  · next hloaded =>
    have hrow : loadedRows (onChain events) msgs msg.key = none := by
      rw [loadedRows, if_neg hloaded]
    rw [owner_replayRows_new (List.pairwise_append.mp hbefore).2.1 hkey hrow]
    by_cases hmint : ∃ x ∈ earlier, x.action = .mint ∧ x.key = msg.key
    · rw [ownerAfter, onChain_append_of_mint hmint] at *
      obtain ⟨token, htoken⟩ : ∃ token, onChain earlier msg.key = some token := by
        rw [alive, onChain_append_of_mint hmint] at halive
        exact Option.isSome_iff_exists.mp (Option.isSome_of_any halive)
      simp [hmint, htoken]
    · have hnone : onChain earlier msg.key = none := by
        rw [← replayRows_onChain (List.pairwise_append.mp hbefore).2.1 hkey,
          ← Option.not_isSome_iff_eq_none, isSome_replayRows_noRows, minted_iff]
        rintro ⟨x, hx, -, haction, hxkey⟩
        exact hmint ⟨x, hx, haction, hxkey⟩
      simp only [hnone, Option.isSome_none, Bool.false_eq_true, imp_false, Option.bind_none, hmint,
        false_or]
      exact and_congr_right fun _ => eq_comm

/-- A page against the final tokens: no burn throws and the owners are those of the chain. -/
theorem pageReads_iff (hcons : Consistent contracts events) (hsplit : events = before ++ msgs ++ rest)
    {known : String × String → Bool} :
    (BurnsKnown tracked (loadedRows (onChain events) msgs) msgs ∧
      (replayActs tracked (loadedRows (onChain events) msgs) msgs).map (store known) =
        (replayActs tracked (replayRows tracked noRows before) msgs).map (store known)) ↔
    PageReads tracked events before msgs := by
  rw [burnsKnown_iff, map_store_replayActs_iff, PageReads, ← @forall_split_iff _
    (fun earlier msg => tracked msg.contractAddress = true → msg.moves = true →
      ReadsOwner events before msgs earlier msg)]
  have hevent : ∀ earlier msg after, msgs = earlier ++ msg :: after →
      tracked msg.contractAddress = true → msg.moves = true →
      (((msg.action = .burn →
        (replayRows tracked (loadedRows (onChain events) msgs) earlier msg.key).isSome = true) ∧
      (replayRows tracked (loadedRows (onChain events) msgs) earlier msg.key).bind (·.owner) =
        (replayRows tracked (replayRows tracked noRows before) earlier msg.key).bind (·.owner)) ↔
      ReadsOwner events before msgs earlier msg) := by
    intro earlier msg after hmsgs htracked hmoves
    have hall : events = before ++ earlier ++ msg :: (after ++ rest) := by
      rw [hsplit, hmsgs]
      simp
    have hsorted := Consistent.heights hcons
    rw [hall] at hsorted
    rw [← replayRows_append, replayRows_onChain (List.pairwise_append.mp hsorted).1 htracked]
    exact readsOwner_iff hcons hall htracked hmoves
  constructor
  · rintro ⟨hburns, howners⟩ earlier msg after hmsgs htracked hmoves
    exact (hevent earlier msg after hmsgs htracked hmoves).mp
      ⟨hburns earlier msg after hmsgs htracked, howners earlier msg after hmsgs htracked hmoves⟩
  · intro hreads
    refine ⟨fun earlier msg after hmsgs htracked haction => ?_,
      fun earlier msg after hmsgs htracked hmoves => ?_⟩
    · have hmoves : msg.moves = true := by simp [SmartContractEvent.moves, haction]
      exact ((hevent earlier msg after hmsgs htracked hmoves).mpr
        (hreads earlier msg after hmsgs htracked hmoves)).1 haction
    · exact ((hevent earlier msg after hmsgs htracked hmoves).mpr
        (hreads earlier msg after hmsgs htracked hmoves)).2

/-- All pages against the final tokens. -/
theorem pagesRead_iff (hcons : Consistent contracts events) {ps : List (List SmartContractEvent)}
    (hsplit : events = before ++ ps.flatten ++ rest) {known : String × String → Bool} :
    ((∀ msgs ∈ ps, BurnsKnown tracked (loadedRows (onChain events) msgs) msgs) ∧
      (ps.flatMap fun msgs =>
          (replayActs tracked (loadedRows (onChain events) msgs) msgs).map (store known)) =
        (replayActs tracked (replayRows tracked noRows before) ps.flatten).map (store known)) ↔
    PagesRead tracked events before ps := by
  induction ps generalizing before with
  | nil => simp [PagesRead, replayActs]
  | cons msgs ps ih =>
    have hpage : events = before ++ msgs ++ (ps.flatten ++ rest) := by rw [hsplit]; simp
    have hpages : events = before ++ msgs ++ ps.flatten ++ rest := by rw [hsplit]; simp
    have hlength : ((replayActs tracked (loadedRows (onChain events) msgs) msgs).map
          (store known)).length =
        ((replayActs tracked (replayRows tracked noRows before) msgs).map (store known)).length := by
      have hids := @map_id_replayActs tracked
      rw [List.length_map, List.length_map, ← List.length_map (·.smart_contract_event_id), hids,
        ← @hids (replayRows tracked noRows before), List.length_map]
    rw [PagesRead, ← pageReads_iff hcons hpage, ← ih hpages, List.forall_mem_cons,
      List.flatMap_cons, List.flatten_cons, replayActs_append, List.map_append, replayRows_append]
    constructor
    · rintro ⟨⟨hburns, hall⟩, heq⟩
      obtain ⟨hfirst, hothers⟩ := List.append_inj heq hlength
      exact ⟨⟨hburns, hfirst⟩, hall, hothers⟩
    · rintro ⟨⟨hburns, hfirst⟩, hall, hothers⟩
      exact ⟨⟨hburns, hall⟩, by rw [hfirst, hothers]⟩

theorem pagesRead_of_not_tracked {ps : List (List SmartContractEvent)}
    (h : ∀ msg ∈ ps.flatten, tracked msg.contractAddress = false) :
    PagesRead tracked events before ps := by
  induction ps generalizing before with
  | nil => trivial
  | cons msgs ps ih =>
    rw [List.flatten_cons, List.forall_mem_append] at h
    refine ⟨fun i hi htracked => ?_, ih h.2⟩
    rw [h.1 _ (List.getElem_mem hi)] at htracked
    cases htracked

/-- The tokens of a history whose contracts are all tracked. -/
theorem replayRows_eq_onChain (hsorted : events.Pairwise fun a b => a.height ≤ b.height)
    (htracked : ∀ msg ∈ events, tracked msg.contractAddress = true) :
    replayRows tracked noRows events = onChain events := by
  have hall : replayRows tracked noRows events = replayRows (fun _ => true) noRows events := by
    unfold replayRows
    refine List.foldl_ext _ _ _ fun rows msg hmsg => ?_
    rw [stepRows, stepRows, htracked msg hmsg]
  rw [hall]
  exact funext fun k => replayRows_onChain hsorted rfl

end ReadOwnerLemmas

end Erascope.Cw721
