import ApproxSet.Failure.Basic
import ApproxSet.Numbers.Decimal
import ApproxSet.Text.Quoted

/-!
# The wording of failures

One function for each kind of cause. A refusal always has a wording; a breach has one only where the
broken condition is one that a caller can be told about.
-/

namespace ApproxSet

/-- What a caller is told about an unusable argument. -/
def Misuse.message : Misuse → String
  | .noBitsPerKey => "a bloom filter needs at least one bit per key"
  | .fingerprintWidth given =>
    "fingerprint width must be between 1 and 32, got " ++ toString given
  | .emptyBucket => "a bucket needs at least one entry"
  | .loadFactor given => "load factor must be in (0, 1], got " ++ Numbers.decimal given
  | .repeatedKey key => "xor filter requires distinct keys, found " ++ toString key ++ " twice"
  | .unknownName name => "unknown filter type " ++ Text.quoted name

/-- What a caller is told about damaged bytes. -/
def Damage.message : Damage → String
  | .slotCount given => "slot count " ++ toString given ++ " is not a positive multiple of 3"
  | .fingerprintWidth given => "fingerprint width " ++ toString given ++ " exceeds 32"
  | .nonzeroCount given slots =>
    toString given ++ " nonzero slots in a table of " ++ toString slots
  | .zeroValue => "zero value in the nonzero slot list"
  | .marksMore announced => "bitmap marks more than " ++ toString announced ++ " nonzero slots"
  | .marksFewer announced => "bitmap marks fewer than " ++ toString announced ++ " nonzero slots"
  | .trailingBits count => toString count ++ " trailing bits after the filter"
  | .rangeStart bit =>
    "range coder stream at bit " ++ toString bit ++ " does not start with a zero byte"
  | .deltaLength bit => "elias-delta length prefix too long at bit " ++ toString bit
  | .deltaWidth bit width =>
    "elias-delta value at bit " ++ toString bit ++ " has " ++ toString width ++ " bits"

/-- What a caller is told when a request is turned down. -/
def Refusal.message : Refusal → String
  | .invalidArgument cause => "invalid argument: " ++ cause.message
  | .degenerateSlot slot degree =>
    "slot " ++ toString slot ++ " reached degree " ++ toString degree
      ++ "; the key set is degenerate or the hash is broken"
  | .evictionLimit rounds =>
    "no empty entry found after " ++ toString rounds
      ++ " evictions; the cuckoo table is over capacity"
  | .attemptsExhausted attempts =>
    "xor filter construction gave up after " ++ toString attempts ++ " attempts"
  | .truncated bit => "serialized filter is truncated at bit " ++ toString bit
  | .corrupt cause => "corrupt serialized filter: " ++ cause.message

/-- What a caller is told about a broken promise, if anything. -/
def Breach.message? : Breach → Option String
  | .overflow | .outOfBounds | .unmet | .capacity => none
  | .fieldWidth width => some ("unsupported width " ++ toString width)
  | .fieldRange first stop length =>
    some ("bit range " ++ toString first ++ ".." ++ toString stop
      ++ " out of bounds for length " ++ toString length)
  | .valueTooWide width => some ("value does not fit in " ++ toString width ++ " bits")
  | .notZeroed bit =>
    some ("bit store write target at bit " ++ toString bit ++ " is not zeroed")
  | .readback bit => some ("bit store readback mismatch at bit " ++ toString bit)
  | .deltaOfZero => some "elias-delta codes start at 1"
  | .noAttempts => some "max_attempts must be at least 1"
  | .largestSalt salt => some ("hash index " ++ toString salt ++ " cannot be serialized")
  | .probeBuffer => some "probe buffer needs at least 72 bytes"

end ApproxSet
