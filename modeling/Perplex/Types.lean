import Mathlib.Data.Fintype.Basic
import Mathlib.Data.Fintype.Card
import Mathlib.Tactic.Linarith
import Mathlib.Tactic.Ring
import Perplex.DecimalFormat

/-! Identifiers shared by the matching engine and the contracts: 20-byte addresses and
32-byte market ids. Both are finite types, so sums over all users or markets are sums
over `Finset.univ`. The numbers of the Rust crates are of one decimal format. -/
namespace Perplex

def Address := Fin (2^160)
deriving DecidableEq, Fintype, Repr

instance (n : ℕ) : OfNat Address n := ⟨Fin.ofNat _ n⟩

def MarketId := Fin (2^256)
deriving DecidableEq, Fintype, Repr

instance (n : ℕ) : OfNat MarketId n := ⟨Fin.ofNat _ n⟩

/-- `rust_decimal`: a mantissa of 96 bits and a scale of at most 28. -/
def rustDecimal : DecimalFormat := ⟨2^96, 28⟩

end Perplex
