import ZenDB.SkipList.Reads
import ZenDB.SkipList.Writes

namespace ZenDB

namespace SkipList

variable {K V : Type}

/-- The writes, each with the coins that it throws if it needs a new node. -/
inductive Op (K V : Type) where
  | put (key : K) (value : V) (coins : Nat → Bool)
  | putIfAbsent (key : K) (value : V) (coins : Nat → Bool)
  | replace (key : K) (value : V) (coins : Nat → Bool)
  | update (key : K) (updateValue : Option V → Option V) (coins : Nat → Bool)
  | delete (key : K)
  | clear

inductive Reply (V : Type) where
  | done (result : Except StorageFull Unit)
  | changed (result : Except StorageFull Bool)
  | replaced (result : Except StorageFull (Option V))

variable [LinearOrder K]

def step (s : SkipList K V) : Op K V → Except Fault (SkipList K V × Reply V)
  | .put key value coins => do
    let (s, result) ← s.put key value coins
    return (s, .done result)
  | .putIfAbsent key value coins => do
    let (s, result) ← s.putIfAbsent key value coins
    return (s, .changed result)
  | .replace key value coins => do
    let (s, result) ← s.replace key value coins
    return (s, .replaced result)
  | .update key updateValue coins => do
    let (s, result) ← s.update key updateValue coins
    return (s, .done result)
  | .delete key => do
    let (s, result) ← s.delete key
    return (s, .changed result)
  | .clear => return (s.clear, .done (.ok ()))

def run (s : SkipList K V) : List (Op K V) → Except Fault (SkipList K V × List (Reply V))
  | [] => .ok (s, [])
  | op :: ops => do
    let (s, reply) ← s.step op
    let (s, replies) ← s.run ops
    return (s, reply :: replies)

/-! A sorted map with a bound on its number of rows. -/

namespace Op

/-- The write would add a key. -/
def adds (m : List (K × V)) : Op K V → Bool
  | put key _ _ | putIfAbsent key _ _ | replace key _ _ => !SortedMap.contains m key
  | update key updateValue _ => !SortedMap.contains m key && (updateValue none).isSome
  | delete _ | clear => false

/-- The rows after the write. -/
def effect (m : List (K × V)) : Op K V → List (K × V)
  | put key value _ | replace key value _ => SortedMap.insert m key value
  | putIfAbsent key value _ =>
    if SortedMap.contains m key then m else SortedMap.insert m key value
  | update key updateValue _ =>
    match updateValue (SortedMap.get m key) with
    | some value => SortedMap.insert m key value
    | none => SortedMap.erase m key
  | delete key => SortedMap.erase m key
  | clear => []

def answer (m : List (K × V)) : Op K V → Reply V
  | put _ _ _ | update _ _ _ | clear => .done (.ok ())
  | putIfAbsent key _ _ => .changed (.ok (!SortedMap.contains m key))
  | replace key _ _ => .replaced (.ok (SortedMap.get m key))
  | delete key => .changed (.ok (SortedMap.contains m key))

omit [LinearOrder K] in
/-- `StorageFull` in the type of the write's result. -/
def refusal (n : Nat) : Op K V → Reply V
  | put _ _ _ | update _ _ _ | clear => .done (.error ⟨n⟩)
  | putIfAbsent _ _ _ | delete _ => .changed (.error ⟨n⟩)
  | replace _ _ _ => .replaced (.error ⟨n⟩)

/-- A write to the map is refused if it would add a key to a map that is full. -/
def apply (bound : Option Nat) (m : List (K × V)) (op : Op K V) : List (K × V) × Reply V :=
  match bound with
  | some n =>
    if op.adds m ∧ n ≤ m.length then (m, op.refusal n) else (op.effect m, op.answer m)
  | none => (op.effect m, op.answer m)

def applyAll (bound : Option Nat) :
    List (K × V) → List (Op K V) → List (K × V) × List (Reply V)
  | m, [] => (m, [])
  | m, op :: ops =>
    let (m', reply) := op.apply bound m
    let (m'', replies) := applyAll bound m' ops
    (m'', reply :: replies)

end Op

/-- Everything that can be read of the skip list is what the rows `m` say. -/
structure ReadsAs (s : SkipList K V) (m : List (K × V)) : Prop where
  get : ∀ key, s.get key = .ok (SortedMap.get m key)
  contains : ∀ key, s.contains key = .ok (SortedMap.contains m key)
  size : s.size = m.length
  entries : s.entries = .ok m
  keys : s.keys = .ok (m.map Prod.fst)
  values : s.values = .ok (m.map Prod.snd)
  entriesRev : s.entriesRev = .ok m.reverse
  range : ∀ start stop,
    s.range start stop = .ok (m.filter fun row => start ≤ row.1 ∧ row.1 < stop)
  rangeRev : ∀ start stop,
    s.rangeRev start stop = .ok (m.filter fun row => start ≤ row.1 ∧ row.1 < stop).reverse
  first : s.first = .ok m.head?
  last : s.last = .ok m.getLast?

variable {s : SkipList K V} {order : List Nat} {m : List (K × V)} {key : K}

theorem Represents.readsAs (h : Represents s order m) : ReadsAs s m where
  get := h.get_eq
  contains := h.contains_eq
  size := h.entries
  entries := h.entries_eq
  keys := by
    simp only [SkipList.keys, h.entries_eq, bind, Except.bind]
    rfl
  values := by
    simp only [SkipList.values, h.entries_eq, bind, Except.bind]
    rfl
  entriesRev := h.entriesRev_eq
  range := h.range_eq
  rangeRev := h.rangeRev_eq
  first := h.first_eq
  last := h.last_eq

/-- The result of a write: its answer, and a skip list of the given rows. -/
def Leads {ρ : Type} (s : SkipList K V) (result : Except Fault (SkipList K V × ρ))
    (m : List (K × V)) (answer : ρ) : Prop :=
  ∃ s' order, result = .ok (s', answer) ∧ Represents s' order m ∧ s'.config = s.config

/-- A key that is not there is found missing, and can be inserted where it belongs. -/
theorem Represents.missing (h : Represents s order m) (hget : SortedMap.get m key = none) :
    ∃ update, s.search key = .ok (update, none) ∧
      (HasRoom s m → ∀ value coins, ∃ s' order' index,
        s.insertNew key value update coins = .ok (s', .ok index) ∧
        Represents s' order' (SortedMap.insert m key value) ∧ s'.config = s.config) := by
  obtain ⟨p, q, lo, hi, rfl, rfl, hsplit, habove, hsearch⟩ := h.search_missing hget
  refine ⟨_, hsearch, ?_⟩
  intro hroom value coins
  obtain ⟨s', index, hinsert, hrep, hconfig⟩ := h.insertNew_room hsplit habove hroom value coins
  rw [SortedMap.insert_append hsplit.below, SortedMap.insert_of_forall_lt habove]
  exact ⟨s', _, index, hinsert, hrep, hconfig⟩

/-- A key that is there is found in its node, which can take another value or be removed. -/
theorem Represents.found (h : Represents s order m) {old : V}
    (hget : SortedMap.get m key = some old) :
    ∃ update index node, s.search key = .ok (update, some index) ∧
      s.arena[index]? = some node ∧ node.value = some old ∧
      (∀ s' value, Revalued s s' index → s'.arena[index]? = some { node with value := some value } →
        Represents s' order (SortedMap.insert m key value)) ∧
      (∀ s₁, Revalued s s₁ index → ∃ s' order', s₁.removeFound update index = .ok s' ∧
        Represents s' order' (SortedMap.erase m key) ∧ s'.config = s.config) := by
  obtain ⟨p, index, q, lo, hi, rfl, rfl, hsplit, hsearch⟩ := h.search_found hget
  obtain ⟨hrow, hafter⟩ := List.cons.inj hsplit.after
  obtain ⟨node, hnode, hkey, hvalue⟩ := rowAt_eq_some hrow
  have hinsert : ∀ value, SortedMap.insert (lo ++ (key, old) :: hi) key value =
      lo ++ (key, value) :: hi := by
    intro value
    rw [SortedMap.insert_append hsplit.below, SortedMap.insert, if_neg (lt_irrefl key), if_pos rfl]
  have herase : SortedMap.erase (lo ++ (key, old) :: hi) key = lo ++ hi := by
    rw [SortedMap.erase_append hsplit.below, SortedMap.erase, if_pos rfl]
  refine ⟨_, index, node, hsearch, hnode, hvalue, ?_, ?_⟩
  · intro s' value hsame hnode'
    rw [hinsert]
    refine h.revalued hsplit.before hafter hsame ?_
    rw [rowAt, hnode']
    simp [hkey]
  · intro s₁ hsame
    rw [herase]
    obtain ⟨s', hremove, hrep, hconfig⟩ := h.removeFound_spec hsplit.before hafter hsame
    exact ⟨s', _, hremove, hrep, hconfig⟩

/-- The node of a key takes another value. -/
theorem Represents.setFound (h : Represents s order m) {old : V}
    (hget : SortedMap.get m key = some old) (value : V) :
    ∃ update index node s', s.search key = .ok (update, some index) ∧
      s.arena[index]? = some node ∧ node.value = some old ∧
      s.setValue index (some value) = .ok s' ∧
      Represents s' order (SortedMap.insert m key value) ∧ s'.config = s.config := by
  obtain ⟨update, index, node, hsearch, hnode, hvalue, hset, -⟩ := h.found hget
  obtain ⟨s', hrun, hsame, hnode'⟩ := setValue_spec hnode (some value)
  exact ⟨update, index, node, s', hsearch, hnode, hvalue, hrun, hset s' value hsame hnode',
    hsame.config⟩

theorem contains_of_get {value : V} (hget : SortedMap.get m key = some value) :
    SortedMap.contains m key = true := by
  rw [SortedMap.contains, hget]
  rfl

theorem not_contains_of_get (hget : SortedMap.get m key = none) :
    SortedMap.contains m key = false := by
  rw [SortedMap.contains, hget]
  rfl

section Steps

variable (h : Represents s order m)

include h

theorem Represents.step_put (value : V) (coins : Nat → Bool)
    (hroom : (Op.put key value coins).adds m = true → HasRoom s m) :
    Leads s (s.step (.put key value coins)) (SortedMap.insert m key value) (.done (.ok ())) := by
  cases hget : SortedMap.get m key with
  | some old =>
    obtain ⟨update, index, node, s', hsearch, -, -, hset, hrep, hconfig⟩ := h.setFound hget value
    refine ⟨s', order, ?_, hrep, hconfig⟩
    simp only [step, put, hsearch, bind, Except.bind, hset]
    rfl
  | none =>
    obtain ⟨update, hsearch, hinsert⟩ := h.missing hget
    have hroom' := hroom (by simp [Op.adds, not_contains_of_get hget])
    obtain ⟨s', order', index, hrun, hrep, hconfig⟩ := hinsert hroom' value coins
    refine ⟨s', order', ?_, hrep, hconfig⟩
    simp only [step, put, hsearch, bind, Except.bind, hrun]
    rfl

theorem Represents.step_putIfAbsent (value : V) (coins : Nat → Bool)
    (hroom : (Op.putIfAbsent key value coins).adds m = true → HasRoom s m) :
    Leads s (s.step (.putIfAbsent key value coins))
      (if SortedMap.contains m key then m else SortedMap.insert m key value)
      (.changed (.ok (!SortedMap.contains m key))) := by
  cases hget : SortedMap.get m key with
  | some old =>
    obtain ⟨update, index, node, hsearch, -⟩ := h.found hget
    rw [contains_of_get hget, if_pos rfl]
    refine ⟨s, order, ?_, h, rfl⟩
    simp only [step, putIfAbsent, hsearch, bind, Except.bind]
    rfl
  | none =>
    obtain ⟨update, hsearch, hinsert⟩ := h.missing hget
    have hroom' := hroom (by simp [Op.adds, not_contains_of_get hget])
    obtain ⟨s', order', index, hrun, hrep, hconfig⟩ := hinsert hroom' value coins
    rw [not_contains_of_get hget, if_neg (by simp)]
    refine ⟨s', order', ?_, hrep, hconfig⟩
    simp only [step, putIfAbsent, hsearch, bind, Except.bind, hrun]
    rfl

theorem Represents.step_replace (value : V) (coins : Nat → Bool)
    (hroom : (Op.replace key value coins).adds m = true → HasRoom s m) :
    Leads s (s.step (.replace key value coins)) (SortedMap.insert m key value)
      (.replaced (.ok (SortedMap.get m key))) := by
  cases hget : SortedMap.get m key with
  | some old =>
    obtain ⟨update, index, node, s', hsearch, hnode, hvalue, hset, hrep, hconfig⟩ :=
      h.setFound hget value
    refine ⟨s', order, ?_, hrep, hconfig⟩
    simp only [step, replace, hsearch, bind, Except.bind, node_eq hnode, live_eq hvalue, hset]
    rfl
  | none =>
    obtain ⟨update, hsearch, hinsert⟩ := h.missing hget
    have hroom' := hroom (by simp [Op.adds, not_contains_of_get hget])
    obtain ⟨s', order', index, hrun, hrep, hconfig⟩ := hinsert hroom' value coins
    refine ⟨s', order', ?_, hrep, hconfig⟩
    simp only [step, replace, hsearch, bind, Except.bind, hrun]
    rfl

theorem Represents.step_delete :
    Leads s (s.step (.delete key)) (SortedMap.erase m key)
      (.changed (.ok (SortedMap.contains m key))) := by
  cases hget : SortedMap.get m key with
  | some old =>
    obtain ⟨update, index, node, hsearch, -, -, -, hremove⟩ := h.found hget
    obtain ⟨s', order', hrun, hrep, hconfig⟩ := hremove s (Revalued.refl s index)
    rw [contains_of_get hget]
    refine ⟨s', order', ?_, hrep, hconfig⟩
    simp only [step, delete, hsearch, bind, Except.bind, hrun]
    rfl
  | none =>
    obtain ⟨update, hsearch, -⟩ := h.missing hget
    rw [not_contains_of_get hget, SortedMap.erase_of_get_none hget]
    refine ⟨s, order, ?_, h, rfl⟩
    simp only [step, delete, hsearch, bind, Except.bind]
    rfl

/-- The value is out of its node while `update_value` runs; it is put back, or its node is
removed. -/
theorem Represents.step_update_found {old : V} (hget : SortedMap.get m key = some old)
    (updateValue : Option V → Option V) (coins : Nat → Bool) :
    Leads s (s.step (.update key updateValue coins)) ((Op.update key updateValue coins).effect m)
      (.done (.ok ())) := by
  obtain ⟨update, index, node, hsearch, hnode, hvalue, hset, hremove⟩ := h.found hget
  obtain ⟨s₁, htake, hsame, hnode₁⟩ := setValue_spec hnode none
  rw [Op.effect, hget]
  cases hnew : updateValue (some old) with
  | some value =>
    obtain ⟨s', hput, hsame', hnode'⟩ := setValue_spec hnode₁ (some value)
    refine ⟨s', order, ?_, hset s' value (hsame.trans hsame') hnode',
      hsame'.config.trans hsame.config⟩
    simp only [step, SkipList.update, hsearch, bind, Except.bind, node_eq hnode, htake, hvalue,
      hnew, hput]
    rfl
  | none =>
    obtain ⟨s', order', hrun, hrep, hconfig⟩ := hremove s₁ hsame
    refine ⟨s', order', ?_, hrep, hconfig⟩
    simp only [step, SkipList.update, hsearch, bind, Except.bind, node_eq hnode, htake, hvalue,
      hnew, hrun]
    rfl

theorem Represents.step_update_missing (hget : SortedMap.get m key = none)
    (updateValue : Option V → Option V) (coins : Nat → Bool)
    (hroom : (Op.update key updateValue coins).adds m = true → HasRoom s m) :
    Leads s (s.step (.update key updateValue coins)) ((Op.update key updateValue coins).effect m)
      (.done (.ok ())) := by
  obtain ⟨update, hsearch, hinsert⟩ := h.missing hget
  rw [Op.effect, hget]
  cases hnew : updateValue none with
  | some value =>
    have hroom' := hroom (by simp [Op.adds, not_contains_of_get hget, hnew])
    obtain ⟨s', order', index, hrun, hrep, hconfig⟩ := hinsert hroom' value coins
    refine ⟨s', order', ?_, hrep, hconfig⟩
    simp only [step, SkipList.update, hsearch, bind, Except.bind, hnew, hrun]
    rfl
  | none =>
    simp only [SortedMap.erase_of_get_none hget]
    refine ⟨s, order, ?_, h, rfl⟩
    simp only [step, SkipList.update, hsearch, bind, Except.bind, hnew]
    rfl

omit h in
theorem step_clear : Leads s (s.step .clear) [] (.done (.ok ())) := by
  refine ⟨s.clear, [], rfl, ?_, rfl⟩
  exact
    { represents_new (V := V) s.config with
      room := fun _ _ => Nat.zero_le _ }

/-- A write that adds no key, or that there is room for, does what it does to the map. -/
theorem Represents.step_accepted (op : Op K V) (hroom : op.adds m = true → HasRoom s m) :
    Leads s (s.step op) (op.effect m) (op.answer m) := by
  cases op with
  | put key value coins => exact h.step_put value coins hroom
  | putIfAbsent key value coins => exact h.step_putIfAbsent value coins hroom
  | replace key value coins => exact h.step_replace value coins hroom
  | update key updateValue coins =>
    cases hget : SortedMap.get m key with
    | some old => exact h.step_update_found hget updateValue coins
    | none => exact h.step_update_missing hget updateValue coins hroom
  | delete key => exact h.step_delete
  | clear => exact step_clear

/-- A write that would add a key to a full list is refused, and the list stays as it is. -/
theorem Represents.step_refused (op : Op K V) (hadds : op.adds m = true) {n : Nat}
    (hn : s.config.capacity.bound = some n) (hfull : n ≤ m.length) :
    s.step op = .ok (s, op.refusal n) := by
  have hmissing : ∀ key, SortedMap.contains m key = false → ∃ update,
      s.search key = .ok (update, none) ∧ ∀ value coins,
        s.insertNew key value update coins = .ok (s, .error ⟨n⟩) := by
    intro key hkey
    rw [SortedMap.contains, Option.isSome_eq_false_iff, Option.isNone_iff_eq_none] at hkey
    obtain ⟨update, hsearch, -⟩ := h.missing hkey
    exact ⟨update, hsearch, fun value coins => h.insertNew_full hn hfull key value update coins⟩
  cases op with
  | put key value coins =>
    obtain ⟨update, hsearch, hrun⟩ := hmissing key (by simpa [Op.adds] using hadds)
    simp only [step, put, hsearch, bind, Except.bind, hrun]
    rfl
  | putIfAbsent key value coins =>
    obtain ⟨update, hsearch, hrun⟩ := hmissing key (by simpa [Op.adds] using hadds)
    simp only [step, putIfAbsent, hsearch, bind, Except.bind, hrun]
    rfl
  | replace key value coins =>
    obtain ⟨update, hsearch, hrun⟩ := hmissing key (by simpa [Op.adds] using hadds)
    simp only [step, replace, hsearch, bind, Except.bind, hrun]
    rfl
  | update key updateValue coins =>
    rw [Op.adds, Bool.and_eq_true, Bool.not_eq_true'] at hadds
    obtain ⟨update, hsearch, hrun⟩ := hmissing key hadds.1
    obtain ⟨value, hvalue⟩ := Option.isSome_iff_exists.mp hadds.2
    simp only [step, SkipList.update, hsearch, bind, Except.bind, hvalue, hrun]
    rfl
  | delete key => cases hadds
  | clear => cases hadds

end Steps

theorem Represents.step_spec (h : Represents s order m) (op : Op K V) :
    Leads s (s.step op) (op.apply s.config.capacity.bound m).1
      (op.apply s.config.capacity.bound m).2 := by
  cases hbound : s.config.capacity.bound with
  | none =>
    refine h.step_accepted op fun _ n hn => ?_
    rw [hbound] at hn
    cases hn
  | some n =>
    by_cases hfull : op.adds m = true ∧ n ≤ m.length
    · rw [Op.apply, if_pos hfull]
      exact ⟨s, order, h.step_refused op hfull.1 hbound hfull.2, h, rfl⟩
    · rw [Op.apply, if_neg hfull]
      refine h.step_accepted op fun hadds n' hn' => ?_
      rw [hbound] at hn'
      cases hn'
      exact not_le.mp fun hle => hfull ⟨hadds, hle⟩

theorem Represents.run_spec (h : Represents s order m) (ops : List (Op K V)) :
    Leads s (s.run ops) (Op.applyAll s.config.capacity.bound m ops).1
      (Op.applyAll s.config.capacity.bound m ops).2 := by
  induction ops generalizing s order m with
  | nil => exact ⟨s, order, rfl, h, rfl⟩
  | cons op ops ih =>
    obtain ⟨s₁, order₁, hstep, hrep₁, hconfig₁⟩ := h.step_spec op
    obtain ⟨s₂, order₂, hrun, hrep₂, hconfig₂⟩ := ih hrep₁
    rw [hconfig₁] at hrun hrep₂
    refine ⟨s₂, order₂, ?_, hrep₂, hconfig₂.trans hconfig₁⟩
    simp only [run, hstep, bind, Except.bind, hrun]
    rfl

/-- A skip list is a sorted map with a bound, whatever coins are thrown: every run goes through and
gives the map's answers, and everything that can be read afterwards is read off the map. A write
that would add a key to a full list is refused and changes nothing; every other write succeeds. -/
theorem refines_sorted_map (config : Workspace.SkipListConfig) (ops : List (Op K V)) :
    ∃ s m replies, Op.applyAll config.capacity.bound [] ops = (m, replies) ∧
      (new config : SkipList K V).run ops = .ok (s, replies) ∧
      Sorted (· < ·) m ∧ ReadsAs s m ∧
      (∀ op, (op.adds m = true → ∀ n, config.capacity.bound = some n → m.length < n) →
        ∃ s', s.step op = .ok (s', op.answer m) ∧ ReadsAs s' (op.effect m)) ∧
      ∀ n, config.capacity.bound = some n → s.arena.length ≤ n ∧
        ∀ op, op.adds m = true → n ≤ m.length → s.step op = .ok (s, op.refusal n) := by
  have hnew : Represents (new config : SkipList K V) [] [] := represents_new config
  obtain ⟨s, order, hrun, hrep, hconfig⟩ := hnew.run_spec ops
  have hconfig' : s.config = config := hconfig
  refine ⟨s, _, _, rfl, hrun, hrep.sorted, hrep.readsAs, ?_, ?_⟩
  · intro op hroom
    obtain ⟨s', order', hstep, hrep', -⟩ :=
      hrep.step_accepted op fun hadds n hn => hroom hadds n (hconfig' ▸ hn)
    exact ⟨s', hstep, hrep'.readsAs⟩
  · intro n hn
    rw [← hconfig'] at hn
    exact ⟨hrep.room n hn, fun op hadds hfull => hrep.step_refused op hadds hn hfull⟩

end SkipList

end ZenDB
