-- The networks and assets of the wallet (`lib/wallet/core/networks.ts` and
-- `assets.ts`), as far as the signer and the confirmation page read them.
import Klick.Text

open Js

namespace Klick

/-! ## Networks -/

inductive WalletNetwork
  | bitcoinSignet | bitcoinMainnet | ethereumSepolia | ethereumMainnet
deriving DecidableEq, Repr

inductive NetworkChain
  | bitcoin | ethereum
deriving DecidableEq, Repr

namespace WalletNetwork

/-- `WALLET_NETWORKS` -/
def all : List WalletNetwork := [bitcoinSignet, bitcoinMainnet, ethereumSepolia, ethereumMainnet]

def key : WalletNetwork → Text
  | bitcoinSignet => js "bitcoin_signet"
  | bitcoinMainnet => js "bitcoin_mainnet"
  | ethereumSepolia => js "ethereum_sepolia"
  | ethereumMainnet => js "ethereum_mainnet"

/-- `NETWORKS[n].chain` -/
def chain : WalletNetwork → NetworkChain
  | bitcoinSignet => .bitcoin
  | bitcoinMainnet => .bitcoin
  | ethereumSepolia => .ethereum
  | ethereumMainnet => .ethereum

def live : WalletNetwork → Bool
  | bitcoinSignet => false
  | bitcoinMainnet => true
  | ethereumSepolia => false
  | ethereumMainnet => true

/-- The prefix of the Bech32 addresses. -/
def bech32 : WalletNetwork → Option Text
  | bitcoinSignet => some (js "tb")
  | bitcoinMainnet => some (js "bc")
  | ethereumSepolia => none
  | ethereumMainnet => none

def chainId : WalletNetwork → Option Nat
  | bitcoinSignet => none
  | bitcoinMainnet => none
  | ethereumSepolia => some 11155111
  | ethereumMainnet => some 1

/-- The network of a key. -/
def ofKey? (t : Text) : Option WalletNetwork := all.find? fun n => n.key = t

theorem mem_all (n : WalletNetwork) : n ∈ all := by
  cases n <;> decide

theorem key_injective : ∀ {m n : WalletNetwork}, m.key = n.key → m = n := by
  intro m n h
  cases m <;> cases n <;> first | rfl | exact absurd h (by decide)

@[simp] theorem ofKey?_key (n : WalletNetwork) : ofKey? n.key = some n := by
  cases n <;> decide

theorem ofKey?_eq_some {t : Text} {n : WalletNetwork} : ofKey? t = some n ↔ t = n.key := by
  constructor
  · intro h
    have := List.find?_some h
    simpa using (of_decide_eq_true this).symm
  · rintro rfl
    exact ofKey?_key n

end WalletNetwork

/-! ## Assets -/

inductive AssetCode
  | btc | eth | usdc | eurc
deriving DecidableEq, Repr

namespace AssetCode

def text : AssetCode → Text
  | btc => js "BTC"
  | eth => js "ETH"
  | usdc => js "USDC"
  | eurc => js "EURC"

def all : List AssetCode := [btc, eth, usdc, eurc]

/-- The asset of a code. -/
def ofText? (t : Text) : Option AssetCode := all.find? fun a => a.text = t

@[simp] theorem ofText?_text (a : AssetCode) : ofText? a.text = some a := by
  cases a <;> decide

theorem ofText?_eq_some {t : Text} {a : AssetCode} : ofText? t = some a ↔ t = a.text := by
  constructor
  · intro h
    have := List.find?_some h
    simpa using (of_decide_eq_true this).symm
  · rintro rfl
    exact ofText?_text a

theorem text_injective {a b : AssetCode} (h : a.text = b.text) : a = b := by
  have := ofText?_text a
  rw [h, ofText?_text] at this
  exact (Option.some.inj this).symm

end AssetCode

/-- What a token's contract is, and none for the native asset. -/
structure AssetInfo where
  code : AssetCode
  contract : Option Text
deriving DecidableEq, Repr

/-- `ASSETS` -/
def assets : WalletNetwork → List AssetInfo
  | .bitcoinSignet => [⟨.btc, none⟩]
  | .bitcoinMainnet => [⟨.btc, none⟩]
  | .ethereumSepolia => [⟨.eth, none⟩,
      ⟨.usdc, some (js "0x1c7D4B196Cb0C7B01d743Fbc6116a902379C7238")⟩,
      ⟨.eurc, some (js "0x08210F9170F89Ab7658F0B5E3fF39b0E03C594D4")⟩]
  | .ethereumMainnet => [⟨.eth, none⟩,
      ⟨.usdc, some (js "0xA0b86991c6218b36c1d19D4a2e9Eb0cE3606eB48")⟩,
      ⟨.eurc, some (js "0x1aBaEA1f7C830bD89Acc67eC4af516284b1bC33c")⟩]

/-- `assetOf` -/
def assetOf (network : WalletNetwork) (code : Text) : Option AssetInfo :=
  (assets network).find? fun a => a.code.text = code

end Klick
