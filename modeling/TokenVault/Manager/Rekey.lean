import TokenVault.Manager.KeyTags

/-! One deep rekey, `rekeyVault( vault, encKey, true )`, on any database. To an unversioned key
it repoints the vault first, with `updateKey`, which commits on its own; `TokenDB::rekey` then
re-encrypts the rows and commits only when its pass ends. So a rekey that returns `false` after the
repointing keeps it, as it always does on a store that rejects `SELECT … FOR UPDATE`
(`sqlite_deep_rekey_repoints`). The pass skips a row whose re-encryption comes back empty, and
still returns `true`. -/

namespace TokenVault.Rekey

open TokenManager KeyTags

end TokenVault.Rekey
