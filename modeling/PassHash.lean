import PassHash.Area
import PassHash.Base64.Alphabet
import PassHash.Base64.HighFirst
import PassHash.Base64.LowFirst
import PassHash.Base64.VarLength
import PassHash.BitCipher
import PassHash.Bytes
import PassHash.Cipher.Blowfish
import PassHash.Cipher.Des.Basic
import PassHash.Cipher.Des.Masks
import PassHash.Cipher.Des.Tables
import PassHash.CommandLine.Arguments
import PassHash.CommandLine.Outcome
import PassHash.CommandLine.Preferences
import PassHash.Digest.Basic
import PassHash.Digest.Blake2b
import PassHash.Digest.Hmac
import PassHash.Digest.Md4
import PassHash.Digest.Md5
import PassHash.Digest.Sha1
import PassHash.Digest.Sha256
import PassHash.Digest.Sha512
import PassHash.Digest.Sm3
import PassHash.Digest.Streebog
import PassHash.Entropy
import PassHash.Failure
import PassHash.FreshSetting
import PassHash.Hashing
import PassHash.Json.Literal
import PassHash.Json.Reader
import PassHash.Json.Value
import PassHash.Kdf.Argon2
import PassHash.Kdf.BlockMix
import PassHash.Kdf.Salsa20
import PassHash.Kdf.Scrypt
import PassHash.Kdf.Yescrypt.Basic
import PassHash.Kdf.Yescrypt.Lane
import PassHash.Kdf.Yescrypt.SBox
import PassHash.Main
import PassHash.Method
import PassHash.Proofs.Base64.ByteSteps
import PassHash.Proofs.Base64.HighFirst
import PassHash.Proofs.Base64.Lossless
import PassHash.Proofs.Base64.LowFirst
import PassHash.Proofs.Base64.RangeSearch
import PassHash.Proofs.Base64.VarLength
import PassHash.Proofs.Base64.WordGroups
import PassHash.Proofs.BitCipher
import PassHash.Proofs.Bytes.Decimal
import PassHash.Proofs.Bytes.Pieces
import PassHash.Proofs.Bytes.Repetition
import PassHash.Proofs.Bytes.Runs
import PassHash.Proofs.Characters
import PassHash.Proofs.Checks
import PassHash.Proofs.Cipher.Des.Basic
import PassHash.Proofs.Cipher.Des.Inverse
import PassHash.Proofs.Cipher.Des.KeySchedule
import PassHash.Proofs.Cipher.Des.Masks
import PassHash.Proofs.Cipher.Des.Schedule
import PassHash.Proofs.Cipher.Des.Standard
import PassHash.Proofs.CommandLine.Arguments
import PassHash.Proofs.CommandLine.Outcome
import PassHash.Proofs.Derivations
import PassHash.Proofs.EntryPoints
import PassHash.Proofs.FinalDigests
import PassHash.Proofs.FreshArea
import PassHash.Proofs.FreshCost
import PassHash.Proofs.FreshSalt
import PassHash.Proofs.FreshSetting
import PassHash.Proofs.Hashing
import PassHash.Proofs.Kdf.Scrypt.Octets
import PassHash.Proofs.Kdf.Scrypt.Standard
import PassHash.Proofs.Kdf.Traced
import PassHash.Proofs.Kdf.Yescrypt.Basic
import PassHash.Proofs.Kdf.Yescrypt.Classic
import PassHash.Proofs.Kdf.Yescrypt.Partition
import PassHash.Proofs.Kdf.Yescrypt.TableAccess
import PassHash.Proofs.Layout
import PassHash.Proofs.Method
import PassHash.Proofs.OutputArea
import PassHash.Proofs.Refusal
import PassHash.Proofs.Salting
import PassHash.Proofs.Scheme.Argon2Hash
import PassHash.Proofs.Scheme.Bcrypt
import PassHash.Proofs.Scheme.Bcrypt.Keys
import PassHash.Proofs.Scheme.Bcrypt.SaltField
import PassHash.Proofs.Scheme.BsdiCrypt
import PassHash.Proofs.Scheme.Descrypt
import PassHash.Proofs.Scheme.Descrypt.Blocks
import PassHash.Proofs.Scheme.Md5Crypt
import PassHash.Proofs.Scheme.NtHash
import PassHash.Proofs.Scheme.RoundsSalt
import PassHash.Proofs.Scheme.ScryptHash
import PassHash.Proofs.Scheme.ScryptHash.TableSize
import PassHash.Proofs.Scheme.Sha1Crypt
import PassHash.Proofs.Scheme.ShaCrypt
import PassHash.Proofs.Scheme.ShaCrypt.Grammar
import PassHash.Proofs.Scheme.ShaCrypt.WorkArea
import PassHash.Proofs.Scheme.SunMd5
import PassHash.Proofs.Scheme.SunMd5.Rounds
import PassHash.Proofs.Scheme.Yescrypt
import PassHash.Proofs.Scheme.Yescrypt.Tagged
import PassHash.Proofs.Scheme.Yescrypt.Written
import PassHash.Proofs.Verdict
import PassHash.Proofs.Verification
import PassHash.Proofs.Word
import PassHash.Proofs.WorkingMemory
import PassHash.Scheme.Argon2Hash
import PassHash.Scheme.Bcrypt
import PassHash.Scheme.BsdiCrypt
import PassHash.Scheme.Descrypt
import PassHash.Scheme.Field
import PassHash.Scheme.Md5Crypt
import PassHash.Scheme.Mixture
import PassHash.Scheme.NtHash
import PassHash.Scheme.RoundsSalt
import PassHash.Scheme.ScryptHash
import PassHash.Scheme.Sha1Crypt
import PassHash.Scheme.ShaCrypt
import PassHash.Scheme.SunMd5
import PassHash.Scheme.Yescrypt
import PassHash.Text.Printable
import PassHash.Text.Quoted
import PassHash.Token
import PassHash.Verdict
import PassHash.Word
import PassHash.Workspace
