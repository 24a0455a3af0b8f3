import Cryptonite.Chain.Activate
import Cryptonite.Chain.TxIndex
import Cryptonite.Pool.MemPool

/-!
# Balances with the pool

`TrieView::ComplexBalances` of `trieview.cpp` answers what an account may spend. It starts from the
account in the trie, takes off what the last blocks paid to it, and takes off what the transactions
of the memory pool withdraw. The limit is that of the account, or the announced one if it is time.

Only the pooled transactions that are final at the tip count. If the withdrawals of these are more
than the account has, the answer is that there is nothing, neither a balance nor a limit.
-/

namespace Cryptonite

/-- What a balance query reads besides the pool. -/
structure TipView where
  /-- `m_root`. -/
  root : Option TrieNode
  /-- `LookupBlockIndex(m_bestBlock, …)`. -/
  best : Option ℕ
  /-- `pprev` of the block index. -/
  pprev : ℕ → Option ℕ
  /-- `ReadBlockFromDisk`. -/
  readBlock : ℕ → Option Block
  /-- `chainActive.Height()`. -/
  height : ℤ
  /-- `MIN_HISTORY`. -/
  MIN_HISTORY : UInt64
  /-- `pwalletMain->IsFromMe`; nothing is, without a wallet. -/
  isFromMe : Transaction → Bool

/-- The local variables of `ComplexBalances` for an account. -/
structure Tally where
  balance : UInt64
  deps : UInt64
  withdrawals : UInt64
  age : UInt64
  futurelimit : UInt64

namespace TipView

variable (tip : TipView)

/-- The loop that reads the last blocks, for `runs` rounds: the blocks and the two depths. A block
that cannot be read is tried again in the next round. -/
def scan : ℕ → Option ℕ → ℤ → ℤ → List Block → List Block × ℤ × ℤ
  | 0, _, nMineConf, nTheirsConf, blocks => (blocks, nMineConf, nTheirsConf)
  | runs + 1, none, nMineConf, nTheirsConf, blocks =>
    scan runs none (nMineConf - 1) (nTheirsConf - 1) blocks
  | runs + 1, some p, nMineConf, nTheirsConf, blocks =>
    match tip.readBlock p with
    | none => scan runs (some p) nMineConf nTheirsConf blocks
    | some block => scan runs (tip.pprev p) nMineConf nTheirsConf (blocks ++ [block])

/-- An output in the untrusted region. -/
def untrusted (nMineConf : ℤ) (key : UInt160) (i : ℕ) (block : Block) (tx : Transaction)
    (t : Tally) (txout : TxOut) : Tally :=
  if txout.pubKey == key && (decide ((i : ℤ) < nMineConf - 1) || !tip.isFromMe tx) then
    { t with
      deps := t.deps + txout.nValue
      age := if block.nHeight > t.age then block.nHeight else t.age }
  else t

def pooledIn (key : UInt160) (t : Tally) (txin : TxIn) : Tally :=
  if txin.pubKey == key then
    { t with
      withdrawals := t.withdrawals + txin.nValue
      age := UInt64.ofInt (toInt32 (tip.height + 1)) }
  else t

def pooledOut (key : UInt160) (trusted : Bool) (t : Tally) (txout : TxOut) : Tally :=
  if txout.pubKey == key && trusted then { t with balance := t.balance + txout.nValue } else t

def final (tx : Transaction) : Bool := isFinalTx tip.MIN_HISTORY tip.height tx 0

def pooled (nMineConf nTheirsConf : ℤ) (key : UInt160) (limit : UInt64) (t : Tally)
    (tx : Transaction) : Tally :=
  if !tip.final tx then t
  else
    let trusted := (tip.isFromMe tx && nMineConf == 0) || nTheirsConf == 0
    let t := tx.vin.foldl (tip.pooledIn key) t
    let t := tx.vout.foldl (pooledOut key trusted) t
    if tx.fSetLimit && (trusted || !decide (tx.nLimitValue < limit)) then
      { t with futurelimit := tx.nLimitValue }
    else t

def limitOf (nTheirsConf : ℤ) (a : AccountData) : UInt64 :=
  if a.limit ≠ a.futureLimit ∧
      UInt64.ofInt tip.height - a.age > MIN_LIMIT_TIME + UInt64.ofInt nTheirsConf then a.futureLimit
  else a.limit

/-- The loop of `ComplexBalances` over the accounts, one round. -/
def accountInfo (pool : TxMemPool) (nMineConf nTheirsConf : ℤ) (blocks : List Block)
    (key : UInt160) : ActInfo :=
  match TrieEngine.find key tip.root with
  | none => .zero
  | some node =>
    let limit := tip.limitOf nTheirsConf node.data
    let t : Tally := ⟨node.data.balance, 0, 0, node.data.age, node.data.futureLimit⟩
    let t := blocks.zipIdx.foldl (fun t (block, i) ↦ block.vtx.foldl (fun t tx ↦
      tx.vout.foldl (tip.untrusted nMineConf key i block tx) t) t) t
    let t := (pool.lookup key).foldl (tip.pooled nMineConf nTheirsConf key limit) t
    if t.deps + t.withdrawals > t.balance then .zero
    else ⟨t.balance - t.deps - t.withdrawals, t.age, limit, t.futurelimit⟩

/-- `ComplexBalances`, with what it appends to `balances`. -/
def complexBalances (pool : TxMemPool) (nMineConf nTheirsConf : ℤ) (hashes : List UInt160) :
    Bool × List ActInfo :=
  match tip.best with
  | none => (false, hashes.map fun _ ↦ .zero)
  | some phead =>
    let (blocks, nMineConf, nTheirsConf) :=
      tip.scan (nTheirsConf - 1).toNat (some phead) nMineConf nTheirsConf []
    (true, hashes.map (tip.accountInfo pool nMineConf nTheirsConf blocks))

def conservativeBalances (pool : TxMemPool) (nMinConf : ℤ) (hashes : List UInt160) :
    Bool × List ActInfo :=
  tip.complexBalances pool nMinConf nMinConf hashes

end TipView

/-! ## What the loops add up -/

/-- A step of the tally adds one amount to the balance, one to the deposits and one to the
withdrawals. The sums wrap. -/
def Tally.Adds {α : Type} (step : Tally → α → Tally) (balance deps withdrawals : α → ℕ) : Prop :=
  ∀ t a, (step t a).balance = t.balance + UInt64.ofNat (balance a) ∧
    (step t a).deps = t.deps + UInt64.ofNat (deps a) ∧
    (step t a).withdrawals = t.withdrawals + UInt64.ofNat (withdrawals a)

theorem Tally.Adds.foldl {α : Type} {step : Tally → α → Tally} {b d w : α → ℕ}
    (h : Tally.Adds step b d w) : Tally.Adds (fun t (l : List α) ↦ l.foldl step t)
      (fun l ↦ (l.map b).sum) (fun l ↦ (l.map d).sum) fun l ↦ (l.map w).sum := by
  intro t l
  induction l generalizing t with
  | nil => simp
  | cons a l ih =>
    obtain ⟨hbalance, hdeps, hwithdrawals⟩ := h t a
    obtain ⟨hbalance', hdeps', hwithdrawals'⟩ := ih (step t a)
    simp only [List.foldl_cons, List.map_cons, List.sum_cons, UInt64.ofNat_add]
    refine ⟨hbalance'.trans ?_, hdeps'.trans ?_, hwithdrawals'.trans ?_⟩
    · rw [hbalance, UInt64.add_assoc]
    · rw [hdeps, UInt64.add_assoc]
    · rw [hwithdrawals, UInt64.add_assoc]

private theorem sum_map_zero {α : Type} (l : List α) : UInt64.ofNat (l.map fun _ ↦ 0).sum = 0 := by
  simp

/-- What the transaction pays to an account. -/
def Transaction.received (key : UInt160) (tx : Transaction) : ℕ :=
  (tx.vout.map fun txout ↦ if txout.pubKey == key then txout.nValue.toNat else 0).sum

theorem Transaction.spent_eq_sum (key : UInt160) (tx : Transaction) : tx.spent key =
    (tx.vin.map fun txin ↦ if txin.pubKey == key then txin.nValue.toNat else 0).sum := by
  rw [spent, exactSum]
  induction tx.vin with
  | nil => rfl
  | cons txin vin ih =>
    rw [List.filter_cons, List.map_cons, List.sum_cons, ← ih]
    split_ifs
    · rfl
    · rw [Nat.zero_add]

namespace TipView

variable {tip : TipView} {pool : TxMemPool} {key : UInt160} {nMineConf nTheirsConf : ℤ}
  {limit : UInt64}

/-- What an output of a block counts in the untrusted region. -/
def deposit (tip : TipView) (nMineConf : ℤ) (key : UInt160) (i : ℕ) (tx : Transaction)
    (txout : TxOut) : ℕ :=
  if txout.pubKey == key && (decide ((i : ℤ) < nMineConf - 1) || !tip.isFromMe tx) then
    txout.nValue.toNat
  else 0

/-- What the last blocks have paid to an account in the untrusted region. -/
def deposited (tip : TipView) (nMineConf : ℤ) (key : UInt160) (blocks : List Block) : ℕ :=
  (blocks.zipIdx.map fun b ↦ (b.1.vtx.map fun tx ↦
    (tx.vout.map (tip.deposit nMineConf key b.2 tx)).sum).sum).sum

/-- What a pooled transaction takes from an account, if it is final. -/
def counted (tip : TipView) (key : UInt160) (tx : Transaction) : ℕ :=
  if tip.final tx then tx.spent key else 0

/-- What the pool takes off the balance of an account. -/
def withdrawn (tip : TipView) (pool : TxMemPool) (key : UInt160) : ℕ :=
  ((pool.lookup key).map (tip.counted key)).sum

/-- What a pooled transaction adds to the balance of an account, if it is final and trusted. -/
def trusted (tip : TipView) (nMineConf nTheirsConf : ℤ) (key : UInt160) (tx : Transaction) : ℕ :=
  if tip.final tx && ((tip.isFromMe tx && nMineConf == 0) || nTheirsConf == 0) then
    tx.received key
  else 0

/-- What the pool adds to the balance of an account. -/
def credited (tip : TipView) (pool : TxMemPool) (nMineConf nTheirsConf : ℤ) (key : UInt160) : ℕ :=
  ((pool.lookup key).map (tip.trusted nMineConf nTheirsConf key)).sum

theorem adds_untrusted (i : ℕ) (block : Block) (tx : Transaction) :
    Tally.Adds (tip.untrusted nMineConf key i block tx) (fun _ ↦ 0)
      (tip.deposit nMineConf key i tx) fun _ ↦ 0 := by
  intro t txout
  rw [untrusted, deposit]
  split_ifs <;> simp

theorem adds_pooledIn : Tally.Adds (tip.pooledIn key) (fun _ ↦ 0) (fun _ ↦ 0)
    fun txin ↦ if txin.pubKey == key then txin.nValue.toNat else 0 := by
  intro t txin
  dsimp only
  rw [pooledIn]
  split_ifs <;> simp

theorem adds_pooledOut (trusted : Bool) : Tally.Adds (pooledOut key trusted)
    (fun txout ↦ if txout.pubKey == key && trusted then txout.nValue.toNat else 0) (fun _ ↦ 0)
    fun _ ↦ 0 := by
  intro t txout
  dsimp only
  rw [pooledOut]
  split_ifs <;> simp

theorem adds_pooled : Tally.Adds (tip.pooled nMineConf nTheirsConf key limit)
    (tip.trusted nMineConf nTheirsConf key) (fun _ ↦ 0) (tip.counted key) := by
  intro t tx
  dsimp only
  rw [pooled, trusted, counted]
  rcases hfinal : tip.final tx with _ | _
  · simp
  · obtain ⟨hbalance₁, hdeps₁, hwithdrawals₁⟩ := (@adds_pooledIn tip key).foldl t tx.vin
    generalize (tip.isFromMe tx && nMineConf == 0 || nTheirsConf == 0) = trusted
    obtain ⟨hbalance₂, hdeps₂, hwithdrawals₂⟩ :=
      (@adds_pooledOut key trusted).foldl (tx.vin.foldl (tip.pooledIn key) t) tx.vout
    have hreceived : (tx.vout.map fun txout ↦
        if txout.pubKey == key && trusted then txout.nValue.toNat else 0).sum
          = if trusted then tx.received key else 0 := by
      cases trusted <;> simp [Transaction.received]
    dsimp only at hbalance₁ hdeps₁ hwithdrawals₁ hbalance₂ hdeps₂ hwithdrawals₂
    rw [sum_map_zero] at hbalance₁ hdeps₁ hdeps₂ hwithdrawals₂
    rw [← Transaction.spent_eq_sum] at hwithdrawals₁
    rw [hreceived, hbalance₁, UInt64.add_zero] at hbalance₂
    rw [hdeps₁, UInt64.add_zero, UInt64.add_zero] at hdeps₂
    rw [hwithdrawals₁, UInt64.add_zero] at hwithdrawals₂
    simp only [Bool.not_true, Bool.false_eq_true, if_false, Bool.true_and, if_true]
    by_cases hset : (tx.fSetLimit && (trusted || !decide (tx.nLimitValue < limit))) = true
    · rw [if_pos hset]
      exact ⟨hbalance₂, hdeps₂.trans (UInt64.add_zero _).symm, hwithdrawals₂⟩
    · rw [if_neg hset]
      exact ⟨hbalance₂, hdeps₂.trans (UInt64.add_zero _).symm, hwithdrawals₂⟩

/-- The answer for an account of the trie: nothing, if the deposits of the untrusted region and the
withdrawals of the pool are more than the account has, and what is left otherwise. -/
theorem accountInfo_of_find {node : LeafPtr} (hfind : TrieEngine.find key tip.root = some node)
    (blocks : List Block) :
    let funds := node.data.balance + UInt64.ofNat (tip.credited pool nMineConf nTheirsConf key)
    let charges := UInt64.ofNat (tip.deposited nMineConf key blocks) +
      UInt64.ofNat (tip.withdrawn pool key)
    (charges > funds ∧ tip.accountInfo pool nMineConf nTheirsConf blocks key = .zero) ∨
      (charges ≤ funds ∧
        (tip.accountInfo pool nMineConf nTheirsConf blocks key).balance = funds - charges ∧
        (tip.accountInfo pool nMineConf nTheirsConf blocks key).limit
          = tip.limitOf nTheirsConf node.data) := by
  -- the blocks, transaction by transaction and output by output
  have hblocks : Tally.Adds (fun t (b : Block × ℕ) ↦ b.1.vtx.foldl (fun t tx ↦
      tx.vout.foldl (tip.untrusted nMineConf key b.2 b.1 tx) t) t) (fun _ ↦ 0)
      (fun b ↦ (b.1.vtx.map fun tx ↦ (tx.vout.map (tip.deposit nMineConf key b.2 tx)).sum).sum)
      fun _ ↦ 0 := by
    intro t b
    have htx : Tally.Adds (fun t (tx : Transaction) ↦
        tx.vout.foldl (tip.untrusted nMineConf key b.2 b.1 tx) t) (fun _ ↦ 0)
        (fun tx ↦ (tx.vout.map (tip.deposit nMineConf key b.2 tx)).sum) fun _ ↦ 0 := by
      intro t tx
      have h := (@adds_untrusted tip key nMineConf b.2 b.1 tx).foldl t tx.vout
      dsimp only at h
      rwa [sum_map_zero] at h
    have h := htx.foldl t b.1.vtx
    dsimp only at h
    rwa [sum_map_zero] at h
  rw [accountInfo, hfind]
  dsimp only
  obtain ⟨hbalance₁, hdeps₁, hwithdrawals₁⟩ := hblocks.foldl
    ⟨node.data.balance, 0, 0, node.data.age, node.data.futureLimit⟩ blocks.zipIdx
  dsimp only at hbalance₁ hdeps₁ hwithdrawals₁
  rw [sum_map_zero] at hbalance₁ hwithdrawals₁
  rw [← deposited] at hdeps₁
  generalize blocks.zipIdx.foldl _ _ = t₁ at *
  obtain ⟨hbalance₂, hdeps₂, hwithdrawals₂⟩ := (@adds_pooled tip key nMineConf nTheirsConf
    (tip.limitOf nTheirsConf node.data)).foldl t₁ (pool.lookup key)
  dsimp only at hbalance₂ hdeps₂ hwithdrawals₂
  rw [sum_map_zero] at hdeps₂
  rw [← withdrawn] at hwithdrawals₂
  rw [← credited] at hbalance₂
  rw [hbalance₁, UInt64.add_zero] at hbalance₂
  rw [hdeps₁, UInt64.zero_add, UInt64.add_zero] at hdeps₂
  rw [hwithdrawals₁, UInt64.add_zero, UInt64.zero_add] at hwithdrawals₂
  rw [hbalance₂, hdeps₂, hwithdrawals₂]
  split_ifs with hlt
  · exact .inl ⟨hlt, rfl⟩
  · exact .inr ⟨UInt64.not_lt.mp hlt, by grind, rfl⟩

theorem credited_eq_zero (hmine : nMineConf ≠ 0) (htheirs : nTheirsConf ≠ 0) :
    tip.credited pool nMineConf nTheirsConf key = 0 := by
  have hnone : ∀ tx, tip.trusted nMineConf nTheirsConf key tx = 0 := by
    simp [trusted, hmine, htheirs]
  rw [credited, funext hnone]
  simp

theorem accountInfo_nil (hmine : nMineConf ≠ 0) (htheirs : nTheirsConf ≠ 0) :
    (TrieEngine.find key tip.root = none ∧
      tip.accountInfo pool nMineConf nTheirsConf [] key = .zero) ∨
    ∃ node, TrieEngine.find key tip.root = some node ∧
      (UInt64.ofNat (tip.withdrawn pool key) > node.data.balance ∧
          tip.accountInfo pool nMineConf nTheirsConf [] key = .zero ∨
        UInt64.ofNat (tip.withdrawn pool key) ≤ node.data.balance ∧
          (tip.accountInfo pool nMineConf nTheirsConf [] key).balance
            = node.data.balance - UInt64.ofNat (tip.withdrawn pool key) ∧
          (tip.accountInfo pool nMineConf nTheirsConf [] key).limit
            = tip.limitOf nTheirsConf node.data) := by
  rcases hfind : TrieEngine.find key tip.root with _ | node
  · refine .inl ⟨rfl, ?_⟩
    rw [accountInfo, hfind]
  · have hinfo := @accountInfo_of_find tip pool key nMineConf nTheirsConf node hfind []
    have hdeposited : UInt64.ofNat (tip.deposited nMineConf key []) = 0 := rfl
    rw [credited_eq_zero hmine htheirs, hdeposited, UInt64.zero_add] at hinfo
    exact .inr ⟨node, rfl, by simpa using hinfo⟩

end TipView

end Cryptonite
