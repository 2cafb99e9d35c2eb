import HopDns.Native.Decode

/-!
# The self test

`selftest` of the program on HopOS: with `HOPDNS_SELFTEST` set it asks the own server over UDP
until an address comes back, and logs it. The network is left open: what comes back to the
question of an attempt, if anything does in time.
-/

namespace HopDns

open ForStd

/-- `SELFTEST_TRIES` -/
def SELFTEST_TRIES : Nat := 120

/-- What the self test logs last. -/
inductive SelfTest where
  /-- not a DNS name -/
  | notName
  /-- the first address, the number of addresses, the response code and the attempt -/
  | ok (first : Ipv4Addr) (count : Nat) (rcode : UInt16) (attempt : Nat)
  /-- no A record after all tries -/
  | noRecord
deriving DecidableEq, Repr

/-- The id of an attempt. -/
def selftestId (attempt : Nat) : UInt16 := UInt16.ofNat (attempt % 0xFFFF)

/-- What comes of one attempt: the first address, the number of addresses and the response code,
    when there is an address in what came back. -/
def heardAddresses (back : Option (List UInt8)) (mem : Mem) :
    Option (Ipv4Addr × Nat × UInt16) × Mem :=
  match back with
  | none => (none, mem)
  | some bytes =>
    match (decode bytes).run mem with
    | (.error _, mem) => (none, mem)
    | (.ok m, mem) =>
      match m.aRecords with
      | [] => (none, mem)
      | first :: rest => (some (first, rest.length + 1, m.rcode), mem)

/-- The loop of `selftest` from an attempt on, over as many more; `q` is the buffer of the
    question, and `heard` what came back to the question of an attempt: nothing when there was no
    socket, when it could not be sent, and when no answer came in time. -/
def selftestFrom (heard : Nat → List UInt8 → Option (List UInt8)) (name : Str) (attempt : Nat)
    (q : List UInt8) (mem : Mem) : Nat → SelfTest
  | 0 => .noRecord
  | tries + 1 =>
    match (encodeQuery (selftestId attempt) name rtype.A none).run q with
    | (.error _, _) => .notName
    | (.ok n, q) =>
      match heardAddresses (heard attempt (q.take n)) mem with
      | (some (first, count, rcode), _) => .ok first count rcode attempt
      | (none, mem) => selftestFrom heard name (attempt + 1) q mem tries

/-- `selftest` -/
def selftest (heard : Nat → List UInt8 → Option (List UInt8)) (name : Str) (mem : Mem) : SelfTest :=
  selftestFrom heard name 1 (List.replicate 512 0) mem SELFTEST_TRIES

end HopDns
