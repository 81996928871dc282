import Peak.Li.Detect

/-! The application table of `lib/peak_li.c` and the two functions that
consult it. The descriptive texts of the table are not modelled. -/
namespace Peak.Li

/-- The application numbers of `lib/peak_li.h`, in the order of its enum. -/
inductive App where
  | unknown | undefined
  | http | rtsp | pop3 | imap | smtp | stun | pptp | telnet | dhcp | ssh | irc | ftp | sip | dns
  | cvs | bittorrent | gnutella | netbios | rtcp | rtp | rip | bgp | ike | dtls | tls | ldap | snmp
  | tftp | xmpp | impp | openvpn | syslog | l2tp | ntp | netflow | radius
  | ospf | icmp | igmp
deriving DecidableEq, Repr

def App.number (app : App) : Nat := app.ctorIdx

/-- `struct peak_lis` without its texts. -/
structure Entry where
  function : Seen → Bool
  proto0 : Nat
  proto1 : Nat
  app : App

/-- `apps`. Shallow protocols come first, greedy ones last; the undefined
application lists no protocol that a packet can have. -/
def apps : List Entry :=
  [⟨iptype, ipprotoIcmp, ipprotoIcmpv6, .icmp⟩,
   ⟨iptype, ipprotoIgmp, ipprotoMax, .igmp⟩,
   ⟨iptype, ipprotoOspfigp, ipprotoMax, .ospf⟩,
   ⟨iptype, ipprotoL2tp, ipprotoMax, .l2tp⟩,
   ⟨pptp, ipprotoTcp, ipprotoGre, .pptp⟩,
   ⟨http, ipprotoTcp, ipprotoMax, .http⟩,
   ⟨rtsp, ipprotoTcp, ipprotoUdp, .rtsp⟩,
   ⟨pop3, ipprotoTcp, ipprotoMax, .pop3⟩,
   ⟨imap, ipprotoTcp, ipprotoMax, .imap⟩,
   ⟨smtp, ipprotoTcp, ipprotoMax, .smtp⟩,
   ⟨ftp, ipprotoTcp, ipprotoMax, .ftp⟩,
   ⟨cvs, ipprotoTcp, ipprotoMax, .cvs⟩,
   ⟨ssh, ipprotoTcp, ipprotoMax, .ssh⟩,
   ⟨irc, ipprotoTcp, ipprotoMax, .irc⟩,
   ⟨stun, ipprotoUdp, ipprotoTcp, .stun⟩,
   ⟨sip, ipprotoUdp, ipprotoTcp, .sip⟩,
   ⟨rip, ipprotoUdp, ipprotoMax, .rip⟩,
   ⟨radius, ipprotoUdp, ipprotoMax, .radius⟩,
   ⟨bgp, ipprotoTcp, ipprotoMax, .bgp⟩,
   ⟨ike, ipprotoUdp, ipprotoMax, .ike⟩,
   ⟨netflow, ipprotoUdp, ipprotoMax, .netflow⟩,
   ⟨tftp, ipprotoUdp, ipprotoMax, .tftp⟩,
   ⟨dhcp, ipprotoUdp, ipprotoMax, .dhcp⟩,
   ⟨dtls, ipprotoUdp, ipprotoMax, .dtls⟩,
   ⟨tls, ipprotoTcp, ipprotoMax, .tls⟩,
   ⟨ldap, ipprotoTcp, ipprotoMax, .ldap⟩,
   ⟨snmp, ipprotoUdp, ipprotoMax, .snmp⟩,
   ⟨bittorrent, ipprotoTcp, ipprotoMax, .bittorrent⟩,
   ⟨gnutella, ipprotoTcp, ipprotoMax, .gnutella⟩,
   ⟨impp, ipprotoTcp, ipprotoMax, .impp⟩,
   ⟨xmpp, ipprotoTcp, ipprotoMax, .xmpp⟩,
   ⟨syslog, ipprotoUdp, ipprotoTcp, .syslog⟩,
   ⟨l2tp, ipprotoUdp, ipprotoMax, .l2tp⟩,
   ⟨ntp, ipprotoUdp, ipprotoMax, .ntp⟩,
   ⟨dns, ipprotoUdp, ipprotoTcp, .dns⟩,
   ⟨openvpn, ipprotoUdp, ipprotoTcp, .openvpn⟩,
   ⟨rtcp, ipprotoUdp, ipprotoMax, .rtcp⟩,
   ⟨netbios, ipprotoUdp, ipprotoTcp, .netbios⟩,
   ⟨telnet, ipprotoTcp, ipprotoMax, .telnet⟩,
   ⟨rtp, ipprotoUdp, ipprotoMax, .rtp⟩,
   ⟨iptype, ipprotoMax, ipprotoMax, .undefined⟩]

/-- The entry lists the protocol. -/
def Entry.lists (e : Entry) (netType : UInt8) : Bool :=
  e.proto0 == netType.toNat || e.proto1 == netType.toNat

/-- `peak_li_test`: the first entry of that number and protocol decides. -/
def test (s : Seen) (number : Nat) : Bool :=
  match apps.find? fun e => e.app.number == number && e.lists s.netType with
  | some e => e.function s
  | none => false

/-- `peak_li_get`: the first entry of that protocol whose detector accepts. -/
def get (s : Seen) : Nat :=
  if (s.netType.toNat = ipprotoTcp ∨ s.netType.toNat = ipprotoUdp) ∧ s.appLen = 0 then
    App.unknown.number
  else
    match apps.find? fun e => e.lists s.netType && e.function s with
    | some e => e.app.number
    | none => if s.appLen ≠ 0 then App.undefined.number else App.unknown.number

end Peak.Li
