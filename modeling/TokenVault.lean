import TokenVault.Basic
import TokenVault.Luhn
import TokenVault.Generators.Random
import TokenVault.Generators.Preserved
import TokenVault.Generators.Registry
import TokenVault.Store.Schema
import TokenVault.Store.TokenDB
import TokenVault.Store.Query
import TokenVault.Store.VaultCache
import TokenVault.Manager.TokenManager
import TokenVault.Manager.KeyTags
import TokenVault.Manager.Rekey
import TokenVault.Manager.Concurrent
import TokenVault.Manager.Contract
