import Cryptonite.Pool.Accept

/-!
# Choosing the accounts that pay

`SelectCoinsMinConf` of `wallet.cpp` sorts the accounts of the wallet by what each of them can pay
at most, the smaller of its balance and its withdrawal limit, and takes them from the small end
until the target is reached; the last one pays what is left. What an account can pay is a
`uint64_t`, and the running total an `int64_t`. A cap is added to the total as a signed number, so
an account that holds `2 ^ 63` or more counts as a debt.

A call does its work if a set that it returns adds up to the target, and it returns none only where
all the caps together are below the target. `selectCoinsMinConf_selectsExactly_iff` says when that
is so: the first running total that reaches the target has to stay below `2 ^ 63` (`Within`).
-/

namespace Cryptonite

/-! ## Signed amounts -/

theorem toInt_toInt64 (x : UInt64) : x.toInt64.toInt = (x.toNat : ℤ).bmod (2 ^ 64) := by
  rw [← Int64.toInt_toBitVec, UInt64.toBitVec_toInt64, BitVec.toInt_eq_toNat_bmod]
  rfl

theorem toNat_toUInt64 (x : Int64) : (x.toUInt64.toNat : ℤ) = x.toInt % 2 ^ 64 := by
  have hcast : x.toInt = (x.toUInt64.toNat : ℤ).bmod (2 ^ 64) := by
    rw [← Int64.toInt_toBitVec, ← Int64.toBitVec_toUInt64, BitVec.toInt_eq_toNat_bmod]
    rfl
  have hlt := x.toUInt64.toNat_lt
  rw [hcast, Int.bmod_def]
  split <;> omega

theorem toInt_add_of_fits {a b : Int64} (hle : -2 ^ 63 ≤ a.toInt + b.toInt)
    (hlt : a.toInt + b.toInt < 2 ^ 63) : (a + b).toInt = a.toInt + b.toInt := by
  rw [Int64.toInt_add]
  exact Int.bmod_eq_of_le (by omega) (by omega)

/-! ## Coins -/

/-- `pair<uint64_t, uint160>`: an amount, and the account that it comes from. -/
structure Coin where
  amount : UInt64
  key : UInt160
  deriving DecidableEq, Repr

/-- The order of pairs. -/
def Coin.le (a b : Coin) : Bool :=
  decide (a.amount < b.amount) || (a.amount == b.amount && decide (a.key ≤ b.key))

/-- `insert` of a `set<pair<uint64_t, uint160> >`. -/
def insertCoin (coin : Coin) (setCoins : List Coin) : List Coin :=
  if setCoins.contains coin then setCoins
  else setCoins.orderedInsert (fun a b ↦ a.le b = true) coin

def amounts (coins : List Coin) : ℕ := (coins.map fun coin ↦ coin.amount.toNat).sum

@[simp] theorem amounts_cons (coin : Coin) (coins : List Coin) :
    amounts (coin :: coins) = coin.amount.toNat + amounts coins := rfl

theorem amounts_append (coins coins' : List Coin) :
    amounts (coins ++ coins') = amounts coins + amounts coins' := by
  simp [amounts]

section Coins

variable {coins coins' setCoins : List Coin} {coin : Coin} {target : ℕ} {nValue : Int64}

theorem amounts_perm (h : coins.Perm coins') : amounts coins = amounts coins' :=
  (h.map _).sum_eq

theorem insertCoin_perm (hnew : coin.key ∉ setCoins.map Coin.key) :
    (insertCoin coin setCoins).Perm (coin :: setCoins) := by
  have hmem : setCoins.contains coin = false := by
    simp only [List.contains_eq_mem, decide_eq_false_iff_not]
    exact fun hmem ↦ hnew (List.mem_map_of_mem hmem)
  rw [insertCoin, hmem]
  exact List.perm_orderedInsert _ coin setCoins

theorem amounts_insertCoin (hnew : coin.key ∉ setCoins.map Coin.key) :
    amounts (insertCoin coin setCoins) = amounts setCoins + coin.amount.toNat := by
  rw [amounts_perm (insertCoin_perm hnew), amounts_cons, Nat.add_comm]

/-! ## The loop -/

/-- The loop of `SelectCoinsMinConf`. -/
def selectLoop (nValue : Int64) : Int64 → List Coin → List Coin → Option (List Coin)
  | _, [], _ => none
  | valueTotal, coin :: coins, setCoinsRet =>
    if coin.amount = 0 then selectLoop nValue valueTotal coins setCoinsRet
    else if valueTotal + coin.amount.toInt64 ≥ nValue then
      some (insertCoin ⟨(nValue - valueTotal).toUInt64, coin.key⟩ setCoinsRet)
    else
      selectLoop nValue (valueTotal + coin.amount.toInt64) coins (insertCoin coin setCoinsRet)

/-- The first running total to reach the target, counted from `total`, is below `2 ^ 63`. -/
def Within (target : ℕ) : ℕ → List Coin → Prop
  | _, [] => True
  | total, coin :: coins =>
    (target ≤ total + coin.amount.toNat → total + coin.amount.toNat < 2 ^ 63) ∧
      (total + coin.amount.toNat < target → Within target (total + coin.amount.toNat) coins)

instance decidableWithin (target : ℕ) : ∀ total coins, Decidable (Within target total coins)
  | _, [] => inferInstanceAs (Decidable True)
  | total, coin :: coins =>
    haveI := decidableWithin target (total + coin.amount.toNat) coins
    inferInstanceAs (Decidable (_ ∧ _))

/-- What a selection returns is exact: a set is worth the target, and there is none only if all the
coins are worth less. -/
def SelectsExactly (target : ℕ) (coins : List Coin) (selected : Option (List Coin)) : Prop :=
  (∀ setCoins, selected = some setCoins → amounts setCoins = target) ∧
    (selected = none → amounts coins < target)

/-- The signed variables of the loop stand for the target and the total so far, which is below. -/
structure Running (nValue valueTotal : Int64) (target total : ℕ) : Prop where
  nValue_eq : nValue.toInt = target
  valueTotal_eq : valueTotal.toInt = total
  total_lt : total < target

namespace Running

variable {nValue valueTotal : Int64} {target total : ℕ}

theorem target_lt (h : Running nValue valueTotal target total) : target < 2 ^ 63 := by
  have hlt := nValue.toInt_lt
  rw [h.nValue_eq] at hlt
  omega

theorem toInt_add (h : Running nValue valueTotal target total) (amount : UInt64) :
    (valueTotal + amount.toInt64).toInt = ((total + amount.toNat : ℕ) : ℤ).bmod (2 ^ 64) := by
  rw [Int64.toInt_add, toInt_toInt64, h.valueTotal_eq, Int.add_bmod_bmod]
  norm_cast

theorem stops_iff (h : Running nValue valueTotal target total) (amount : UInt64) :
    valueTotal + amount.toInt64 ≥ nValue ↔
      target ≤ total + amount.toNat ∧ total + amount.toNat < 2 ^ 63 := by
  have htarget := h.target_lt
  have htotal := h.total_lt
  have hamount := amount.toNat_lt
  rw [ge_iff_le, Int64.le_iff_toInt_le, h.toInt_add, h.nValue_eq, Int.bmod_def]
  split <;> omega

theorem rest_eq (h : Running nValue valueTotal target total) :
    (nValue - valueTotal).toUInt64.toNat = target - total := by
  have htarget := h.target_lt
  have htotal := h.total_lt
  have hsub : (nValue - valueTotal).toInt = target - total := by
    rw [Int64.toInt_sub, h.nValue_eq, h.valueTotal_eq]
    exact Int.bmod_eq_of_le (by omega) (by omega)
  have hcast := toNat_toUInt64 (nValue - valueTotal)
  rw [hsub] at hcast
  omega

theorem add (h : Running nValue valueTotal target total) {amount : UInt64}
    (hlt : total + amount.toNat < target) :
    Running nValue (valueTotal + amount.toInt64) target (total + amount.toNat) := by
  have htarget := h.target_lt
  refine ⟨h.nValue_eq, ?_, hlt⟩
  rw [h.toInt_add]
  exact Int.bmod_eq_of_le (by omega) (by omega)

end Running

theorem key_notMem_of_nodup (hnodup : ((setCoins ++ coin :: coins).map Coin.key).Nodup) :
    coin.key ∉ setCoins.map Coin.key := by
  rw [List.map_append, List.map_cons, List.nodup_append'] at hnodup
  exact fun hmem ↦ hnodup.2.2 hmem List.mem_cons_self

theorem nodup_insertCoin (hnodup : ((setCoins ++ coin :: coins).map Coin.key).Nodup) :
    ((insertCoin coin setCoins ++ coins).map Coin.key).Nodup := by
  have hperm : (insertCoin coin setCoins ++ coins).Perm (setCoins ++ coin :: coins) :=
    ((insertCoin_perm (key_notMem_of_nodup hnodup)).append_right coins).trans
      List.perm_middle.symm
  exact ((hperm.map Coin.key).nodup_iff).mpr hnodup

theorem nodup_of_cons (hnodup : ((setCoins ++ coin :: coins).map Coin.key).Nodup) :
    ((setCoins ++ coins).map Coin.key).Nodup :=
  hnodup.sublist (((List.sublist_cons_self coin coins).append_left setCoins).map Coin.key)

/-- What the loop returns holds coins of different accounts that were there, and is worth at least
what the set was worth at the start. -/
theorem selectLoop_keys :
    ∀ {valueTotal : Int64} {setCoins selected : List Coin},
      ((setCoins ++ coins).map Coin.key).Nodup →
      selectLoop nValue valueTotal coins setCoins = some selected →
      (selected.map Coin.key).Nodup ∧
        (∀ coin ∈ selected, coin.key ∈ (setCoins ++ coins).map Coin.key) ∧
        amounts setCoins ≤ amounts selected := by
  induction coins with
  | nil => exact fun _ hselected ↦ by simp [selectLoop] at hselected
  | cons coin coins ih =>
    intro valueTotal setCoins selected hnodup hselected
    rw [selectLoop] at hselected
    split at hselected
    · obtain ⟨hkeys, hmem, hle⟩ := ih (nodup_of_cons hnodup) hselected
      refine ⟨hkeys, fun c hc ↦ ?_, hle⟩
      have hc' := hmem c hc
      simp only [List.map_append, List.map_cons, List.mem_append, List.mem_cons] at hc' ⊢
      tauto
    · split at hselected
      · -- The last account pays another amount, but its key is that of the coin.
        cases hselected
        have hlast : ((setCoins ++ ⟨(nValue - valueTotal).toUInt64, coin.key⟩ :: coins).map
            Coin.key).Nodup := by
          simpa using hnodup
        have hperm := insertCoin_perm (key_notMem_of_nodup hlast)
        refine ⟨?_, fun c hc ↦ ?_, ?_⟩
        · exact (nodup_insertCoin hlast).sublist ((List.sublist_append_left _ coins).map Coin.key)
        · rcases List.mem_cons.mp (hperm.mem_iff.mp hc) with rfl | hc
          · simp
          · exact List.mem_map_of_mem (List.mem_append_left _ hc)
        · rw [amounts_insertCoin (key_notMem_of_nodup hlast)]
          exact Nat.le_add_right _ _
      · have hperm := insertCoin_perm (key_notMem_of_nodup hnodup)
        obtain ⟨hkeys, hmem, hle⟩ := ih (nodup_insertCoin hnodup) hselected
        refine ⟨hkeys, fun c hc ↦ ?_, ?_⟩
        · have hc' := hmem c hc
          rw [List.map_append, List.mem_append, (hperm.map Coin.key).mem_iff] at hc'
          simp only [List.map_append, List.map_cons, List.mem_append, List.mem_cons] at hc' ⊢
          tauto
        · rw [amounts_insertCoin (key_notMem_of_nodup hnodup)] at hle
          exact (Nat.le_add_right _ _).trans hle

theorem selectsExactly_of_amounts_eq
    {selected : Option (List Coin)} (h : amounts coins = amounts coins') :
    SelectsExactly target coins selected ↔ SelectsExactly target coins' selected := by
  rw [SelectsExactly, SelectsExactly, h]

theorem amounts_insertCoin_append (hnodup : ((setCoins ++ coin :: coins).map Coin.key).Nodup) :
    amounts (insertCoin coin setCoins ++ coins) = amounts (setCoins ++ coin :: coins) := by
  rw [amounts_append, amounts_append, amounts_insertCoin (key_notMem_of_nodup hnodup),
    amounts_cons, Nat.add_assoc]

theorem not_selectsExactly_of_lt {valueTotal : Int64}
    (hnodup : ((setCoins ++ coin :: coins).map Coin.key).Nodup)
    (hlt : target < amounts setCoins + coin.amount.toNat) :
    ¬ SelectsExactly target (setCoins ++ coin :: coins)
      (selectLoop nValue valueTotal coins (insertCoin coin setCoins)) := by
  have hamount := amounts_insertCoin (key_notMem_of_nodup hnodup)
  rintro ⟨hexact, hfails⟩
  rcases hloop : selectLoop nValue valueTotal coins (insertCoin coin setCoins) with _ | selected
  · have hless := hfails hloop
    rw [← amounts_insertCoin_append hnodup, amounts_append, hamount] at hless
    omega
  · have hle := (selectLoop_keys (nodup_insertCoin hnodup) hloop).2.2
    rw [hexact selected hloop, hamount] at hle
    omega

/-- **The loop is exact** precisely if the first running total to reach the target does not wrap. -/
theorem selectLoop_exact_iff :
    ∀ {valueTotal : Int64} {setCoins : List Coin},
      Running nValue valueTotal target (amounts setCoins) →
      ((setCoins ++ coins).map Coin.key).Nodup →
      (SelectsExactly target (setCoins ++ coins) (selectLoop nValue valueTotal coins setCoins) ↔
        Within target (amounts setCoins) coins) := by
  induction coins with
  | nil =>
    intro valueTotal setCoins hrun _
    exact iff_of_true ⟨by simp [selectLoop], fun _ ↦ by simpa using hrun.total_lt⟩ trivial
  | cons coin coins ih =>
    intro valueTotal setCoins hrun hnodup
    have hnew := key_notMem_of_nodup hnodup
    have hamount := amounts_insertCoin hnew
    have htotal := hrun.total_lt
    rw [selectLoop, Within]
    split
    case isTrue hzero =>
      have hskip : amounts (setCoins ++ coin :: coins) = amounts (setCoins ++ coins) := by
        simp [amounts_append, hzero]
      rw [hzero, UInt64.toNat_zero, Nat.add_zero, selectsExactly_of_amounts_eq hskip,
        ih hrun (nodup_of_cons hnodup)]
      exact ⟨fun h ↦ ⟨fun hle ↦ by omega, fun _ ↦ h⟩, fun h ↦ h.2 htotal⟩
    case isFalse =>
      split
      case isTrue hstop =>
        obtain ⟨hreach, hfits⟩ := (hrun.stops_iff coin.amount).mp hstop
        refine iff_of_true ⟨fun selected hselected ↦ ?_, by simp⟩ ⟨fun _ ↦ hfits, by omega⟩
        cases hselected
        have hlast : (⟨(nValue - valueTotal).toUInt64, coin.key⟩ : Coin).key ∉
          setCoins.map Coin.key := hnew
        rw [amounts_insertCoin hlast, hrun.rest_eq]
        omega
      case isFalse hstop =>
        rcases Nat.lt_or_ge (amounts setCoins + coin.amount.toNat) target with hlt | hreach
        · rw [← selectsExactly_of_amounts_eq (amounts_insertCoin_append hnodup),
            ih (hamount ▸ hrun.add hlt) (nodup_insertCoin hnodup), hamount]
          exact ⟨fun h ↦ ⟨fun hle ↦ by omega, fun _ ↦ h⟩, fun h ↦ h.2 hlt⟩
        · -- The sum wraps: the coin is taken in full, and what the set is worth is past the target.
          have hwraps : ¬ amounts setCoins + coin.amount.toNat < 2 ^ 63 := fun hfits ↦
            hstop ((hrun.stops_iff coin.amount).mpr ⟨hreach, hfits⟩)
          have hpast := hrun.target_lt.trans_le (Nat.not_lt.mp hwraps)
          exact iff_of_false (not_selectsExactly_of_lt hnodup hpast) fun h ↦ hwraps (h.1 hreach)

/-- What is left of the target is no more than the coin that reaches it, also if the sum wraps. -/
theorem rest_le {valueTotal : Int64} {amount : UInt64} (hlt : valueTotal < nValue)
    (hstop : valueTotal + amount.toInt64 ≥ nValue) :
    (nValue - valueTotal).toUInt64.toNat ≤ amount.toNat := by
  have hrest := toNat_toUInt64 (nValue - valueTotal)
  have hamount := amount.toNat_lt
  have hlow := valueTotal.le_toInt
  have hhigh := nValue.toInt_lt
  rw [Int64.lt_iff_toInt_lt] at hlt
  rw [ge_iff_le, Int64.le_iff_toInt_le, Int64.toInt_add, toInt_toInt64, Int.add_bmod_bmod,
    Int.bmod_def] at hstop
  rw [Int64.toInt_sub, show (2 : ℤ) ^ 64 = (2 ^ 64 : ℕ) from rfl, Int.bmod_emod] at hrest
  split at hstop <;> omega

/-- The loop takes from no account more than its coin is worth. -/
theorem selectLoop_le :
    ∀ {valueTotal : Int64} {setCoins selected : List Coin}, valueTotal < nValue →
      ((setCoins ++ coins).map Coin.key).Nodup →
      selectLoop nValue valueTotal coins setCoins = some selected → ∀ c ∈ selected,
        ∃ c' ∈ setCoins ++ coins, c'.key = c.key ∧ c.amount.toNat ≤ c'.amount.toNat := by
  induction coins with
  | nil => exact fun _ _ hselected ↦ by simp [selectLoop] at hselected
  | cons coin coins ih =>
    intro valueTotal setCoins selected hlt hnodup hselected c hc
    have hnew := key_notMem_of_nodup hnodup
    rw [selectLoop] at hselected
    split at hselected
    · obtain ⟨c', hc', hle⟩ := ih hlt (nodup_of_cons hnodup) hselected c hc
      exact ⟨c', by simp only [List.mem_append, List.mem_cons] at hc' ⊢; tauto, hle⟩
    · split at hselected
      case isTrue hstop =>
        cases hselected
        have hlast : (⟨(nValue - valueTotal).toUInt64, coin.key⟩ : Coin).key ∉
          setCoins.map Coin.key := hnew
        rcases List.mem_cons.mp ((insertCoin_perm hlast).mem_iff.mp hc) with rfl | hc
        · exact ⟨coin, by simp, rfl, rest_le hlt hstop⟩
        · exact ⟨c, List.mem_append_left _ hc, rfl, le_rfl⟩
      case isFalse hstop =>
        obtain ⟨c', hc', hle⟩ :=
          ih (Int64.not_le.mp hstop) (nodup_insertCoin hnodup) hselected c hc
        rw [List.mem_append, (insertCoin_perm hnew).mem_iff] at hc'
        exact ⟨c', by simp only [List.mem_append, List.mem_cons] at hc' ⊢; tauto, hle⟩

end Coins

/-! ## The wallet -/

/-- What `CWallet` and the globals around it hold. -/
structure Wallet where
  /-- `pviewTip`. -/
  tip : TipView
  /-- `mempool`. -/
  pool : TxMemPool
  /-- `GetKeys`, in the order of the set. -/
  keys : List UInt160
  sorted : keys.Pairwise (· < ·)
  /-- The names in `mapAddressBook`. -/
  addressBook : UInt160 → Option String
  bSpendZeroConfChange : Bool
  /-- `nTransactionFee`: what the user pays per kilobyte. -/
  nTransactionFee : Int64
  /-- `CTransaction::nMinTxFee`; `-mintxfee` takes positive amounts only. -/
  nMinTxFee : Int64
  nMinTxFee_pos : 0 < nMinTxFee
  /-- `CTransaction::nMinRelayTxFee`. -/
  nMinRelayTxFee : Int64
  /-- `Hash`: double SHA-256. -/
  H : List UInt8 → UInt256
  /-- `GetKey` and `SignCompact`. -/
  signCompact : UInt160 → UInt256 → Option (List UInt8)

namespace Wallet

variable (wallet : Wallet)

/-- `GetAllKeys`, with and without a name. -/
def getAllKeys (fromAccount : String) : List UInt160 :=
  if fromAccount.isEmpty then wallet.keys
  else wallet.keys.filter fun key ↦ wallet.addressBook key == some fromAccount

/-- The accounts with what `ComplexBalances` reports of them. -/
def reported (nConfMine nConfTheirs : ℤ) (fromAccount : String) : List (UInt160 × ActInfo) :=
  let keys := wallet.getAllKeys fromAccount
  keys.zip (wallet.tip.complexBalances wallet.pool nConfMine nConfTheirs keys).2

/-- What an account can pay at most. -/
def cap (info : ActInfo) : UInt64 :=
  if info.balance > info.limit then info.limit else info.balance

/-- The coins that are to be sorted. -/
def coins (nConfMine nConfTheirs : ℤ) (setDisallowed : List UInt160) (fromAccount : String) :
    List Coin :=
  ((wallet.reported nConfMine nConfTheirs fromAccount).filter fun entry ↦
    !setDisallowed.contains entry.1).map fun entry ↦ ⟨cap entry.2, entry.1⟩

/-- The coins in the order in which they are tried. -/
def sortedCoins (nConfMine nConfTheirs : ℤ) (setDisallowed : List UInt160)
    (fromAccount : String) : List Coin :=
  (wallet.coins nConfMine nConfTheirs setDisallowed fromAccount).insertionSort
    fun a b ↦ a.le b = true

def selectCoinsMinConf (nValue : Int64) (nConfMine nConfTheirs : ℤ) (setDisallowed : List UInt160)
    (fromAccount : String) : Option (List Coin) :=
  selectLoop nValue 0 (wallet.sortedCoins nConfMine nConfTheirs setDisallowed fromAccount) []

def selectCoins (nValue : Int64) (setDisallowed : List UInt160) (fromAccount : String) :
    Option (List Coin) :=
  wallet.selectCoinsMinConf nValue 1 6 setDisallowed fromAccount <|>
  wallet.selectCoinsMinConf nValue 1 1 setDisallowed fromAccount <|>
  (if wallet.bSpendZeroConfChange then
    wallet.selectCoinsMinConf nValue 0 1 setDisallowed fromAccount
  else none)

/-- The depth at which `SelectCoins` selects: the first that has enough. -/
def depthUsed (nValue : Int64) (setDisallowed : List UInt160) (fromAccount : String) :
    Option (ℤ × ℤ) :=
  [(1, 6), (1, 1), (0, 1)].find? fun depth ↦
    (wallet.selectCoinsMinConf nValue depth.1 depth.2 setDisallowed fromAccount).isSome

variable {wallet} {nValue : Int64} {nConfMine nConfTheirs : ℤ} {setDisallowed : List UInt160}
  {fromAccount : String}

variable {setCoins : List Coin} {coin : Coin} {target : ℕ}

theorem exists_depthUsed
    (h : wallet.selectCoins nValue setDisallowed fromAccount = some setCoins) :
    ∃ depth, wallet.depthUsed nValue setDisallowed fromAccount = some depth ∧
      wallet.selectCoinsMinConf nValue depth.1 depth.2 setDisallowed fromAccount =
        some setCoins := by
  simp only [selectCoins, Option.orElse_eq_orElse, Option.orElse_eq_or, Option.or_eq_some_iff,
    Option.ite_none_right_eq_some] at h
  obtain h | ⟨hfirst, h | ⟨hsecond, -, h⟩⟩ := h
  · exact ⟨(1, 6), by simp [depthUsed, h], h⟩
  · exact ⟨(1, 1), by simp [depthUsed, hfirst, h], h⟩
  · exact ⟨(0, 1), by simp [depthUsed, hfirst, hsecond, h], h⟩

theorem toNat_cap (info : ActInfo) :
    (cap info).toNat = min info.balance.toNat info.limit.toNat := by
  rw [cap]
  split
  case isTrue hlt => exact (Nat.min_eq_right (UInt64.lt_iff_toNat_lt.mp hlt).le).symm
  case isFalse hle =>
    exact (Nat.min_eq_left (UInt64.le_iff_toNat_le.mp (UInt64.not_lt.mp hle))).symm

theorem nodup_getAllKeys (fromAccount : String) : (wallet.getAllKeys fromAccount).Nodup := by
  have hnodup : wallet.keys.Nodup := wallet.sorted.imp fun hlt ↦ BitVec.ne_of_lt hlt
  rw [getAllKeys]
  split
  · exact hnodup
  · exact hnodup.filter _

theorem mem_coins :
    coin ∈ wallet.coins nConfMine nConfTheirs setDisallowed fromAccount ↔
      ∃ info, (coin.key, info) ∈ wallet.reported nConfMine nConfTheirs fromAccount ∧
        coin.key ∉ setDisallowed ∧ coin.amount = cap info := by
  simp only [coins, List.mem_map, List.mem_filter, Bool.not_eq_true', List.contains_eq_mem,
    decide_eq_false_iff_not]
  constructor
  · rintro ⟨entry, ⟨hentry, hallowed⟩, rfl⟩
    exact ⟨entry.2, hentry, hallowed, rfl⟩
  · rintro ⟨info, hentry, hallowed, hamount⟩
    exact ⟨(coin.key, info), ⟨hentry, hallowed⟩, by rw [← hamount]⟩

theorem map_fst_reported : (wallet.reported nConfMine nConfTheirs fromAccount).map Prod.fst =
      wallet.getAllKeys fromAccount := by
  refine List.map_fst_zip (le_of_eq ?_)
  rw [TipView.complexBalances]
  split <;> simp

theorem nodup_coins :
    ((wallet.coins nConfMine nConfTheirs setDisallowed fromAccount).map Coin.key).Nodup := by
  have hkeys : ((wallet.reported nConfMine nConfTheirs fromAccount).map Prod.fst).Nodup := by
    rw [map_fst_reported]
    exact nodup_getAllKeys fromAccount
  rw [coins, List.map_map]
  exact hkeys.sublist (List.filter_sublist.map Prod.fst)

theorem sortedCoins_perm : (wallet.sortedCoins nConfMine nConfTheirs setDisallowed fromAccount).Perm
      (wallet.coins nConfMine nConfTheirs setDisallowed fromAccount) :=
  List.perm_insertionSort _ _

theorem nodup_sortedCoins :
    ((wallet.sortedCoins nConfMine nConfTheirs setDisallowed fromAccount).map Coin.key).Nodup :=
  ((sortedCoins_perm.map Coin.key).nodup_iff).mpr nodup_coins

theorem running_zero (htarget : nValue.toInt = target) (hpos : 0 < target) :
    Running nValue 0 target 0 :=
  ⟨htarget, rfl, hpos⟩

/-- **`SelectCoinsMinConf` is exact** for a target precisely if the first running total to reach it
does not wrap. -/
theorem selectCoinsMinConf_selectsExactly_iff (htarget : nValue.toInt = target)
    (hpos : 0 < target) :
    SelectsExactly target (wallet.coins nConfMine nConfTheirs setDisallowed fromAccount)
        (wallet.selectCoinsMinConf nValue nConfMine nConfTheirs setDisallowed fromAccount) ↔
      Within target 0 (wallet.sortedCoins nConfMine nConfTheirs setDisallowed fromAccount) := by
  rw [← selectsExactly_of_amounts_eq (amounts_perm sortedCoins_perm)]
  exact selectLoop_exact_iff (running_zero htarget hpos) nodup_sortedCoins

theorem selectCoinsMinConf_keys
    (h : wallet.selectCoinsMinConf nValue nConfMine nConfTheirs setDisallowed fromAccount =
      some setCoins) :
    (setCoins.map Coin.key).Nodup ∧ ∀ coin ∈ setCoins, coin.key ∉ setDisallowed := by
  obtain ⟨hnodup, hmem, -⟩ := selectLoop_keys nodup_sortedCoins h
  refine ⟨hnodup, fun coin hcoin ↦ ?_⟩
  obtain ⟨c, hc, hkey⟩ := List.mem_map.mp (hmem coin hcoin)
  obtain ⟨-, -, hallowed, -⟩ := mem_coins.mp (sortedCoins_perm.mem_iff.mp hc)
  exact hkey ▸ hallowed

theorem selectCoinsMinConf_le (hpos : 0 < nValue)
    (h : wallet.selectCoinsMinConf nValue nConfMine nConfTheirs setDisallowed fromAccount =
      some setCoins) (hcoin : coin ∈ setCoins) :
    ∃ info, (coin.key, info) ∈ wallet.reported nConfMine nConfTheirs fromAccount ∧
      coin.amount.toNat ≤ min info.balance.toNat info.limit.toNat := by
  obtain ⟨c, hc, hkey, hle⟩ := selectLoop_le hpos nodup_sortedCoins h coin hcoin
  obtain ⟨info, hinfo, -, hamount⟩ := mem_coins.mp (sortedCoins_perm.mem_iff.mp hc)
  exact ⟨info, hkey ▸ hinfo, by rwa [hamount, toNat_cap] at hle⟩

end Wallet

end Cryptonite
