import Mathlib.Data.List.Find
import Peak.Li.Apps

/-! Which bytes the detectors look at. All of them check the announced length
before they read, but the LDAP and SNMP checks are one byte short: both look
at the byte behind the payload when the message ends right before it. -/
namespace Peak.Li

open ByteImage

/-- The same announced values and the same announced bytes. -/
structure Same (s s' : Seen) : Prop where
  appLen : s'.appLen = s.appLen
  flowLen : s'.flowLen = s.flowLen
  netType : s'.netType = s.netType
  flowSport : s'.flowSport = s.flowSport
  flowDport : s'.flowDport = s.flowDport
  app : Agree s.appLen s.app s'.app
  flow : Agree s.flowLen s.flow s'.flow

/-- The application number and every single test depend on announced bytes
only. -/
def LooksOnlyAtPayload (s : Seen) : Prop :=
  ∀ s', Same s s' → get s' = get s ∧ ∀ number, test s' number = test s number

/-- A TCP payload that passes for LDAP up to its message number and ends right
behind it. -/
def LdapCut (s : Seen) : Prop :=
  s.netType.toNat = ipprotoTcp ∧ ldapHead s = true ∧ s.appLen = 8 + byte s.app 7

/-- A UDP payload that passes for SNMP up to its community string and ends two
bytes behind it. -/
def SnmpCut (s : Seen) : Prop :=
  s.netType.toNat = ipprotoUdp ∧ snmpHead s = true ∧ s.appLen = 7 + byte s.app 6 + 2

variable {s s' : Seen}

/-- A check that needs `n` announced bytes and looks at no others. -/
theorem guarded_local {n : Nat} {check check' : Bool}
    (hCheck : n ≤ s.appLen → check' = check) :
    (decide (n ≤ s.appLen) && check') = (decide (n ≤ s.appLen) && check) := by
  by_cases hLen : n ≤ s.appLen
  · rw [hCheck hLen]
  · simp [hLen]

/-- The scan only ever looks at offsets below the end of the payload. -/
theorem strlenFrom_local (hLen : s'.appLen = s.appLen) (hApp : Agree s.appLen s.app s'.app)
    (off : Nat) : ∀ fuel ret, off + ret < s.appLen →
      strlenFrom s' off fuel ret = strlenFrom s off fuel ret := by
  intro fuel
  induction fuel with
  | zero => exact fun _ _ => rfl
  | succ fuel ih =>
      intro ret hRet
      simp only [strlenFrom, hLen, hApp.byte hRet]
      by_cases hEnd : s.appLen ≤ off + (ret + 1)
      · simp only [hEnd, if_true]
      · simp only [hEnd, if_false, ih (ret + 1) (by omega)]

theorem lt_of_strlen_ne_zero {off : Nat} (hFound : strlen s off ≠ 0) : off < s.appLen := by
  unfold strlen at hFound
  split_ifs at hFound with hOff
  · exact hOff
  · exact absurd rfl hFound

theorem padding_le (s : Seen) : padding s ≤ 2 := by
  unfold padding
  split <;> omega

section Detectors

variable (h : Same s s')

include h

theorem padding_local : padding s' = padding s := by
  simp only [padding, h.netType]

theorem excludePort_local : excludePort s' = excludePort s := by
  funext port
  simp only [excludePort, h.flowSport, h.flowDport]

theorem matchPayload_local (keys : List String) : matchPayload s' keys = matchPayload s keys := by
  unfold matchPayload
  rw [h.appLen]
  by_cases hLen : s.appLen < 4
  · simp only [hLen, if_true]
  · rw [h.app.bytes (show 0 + 4 ≤ s.appLen by omega)]

theorem keyed_local (keys : List String) : keyed s' keys = keyed s keys := by
  simp only [keyed, matchPayload_local h]

theorem strlen_local (off : Nat) : strlen s' off = strlen s off := by
  unfold strlen
  rw [h.appLen]
  by_cases hOff : off < s.appLen
  · simp only [hOff, if_true]
    exact strlenFrom_local h.appLen h.app off _ 0 hOff
  · simp only [hOff, if_false]

theorem stun_local : stun s' = stun s := by
  have hCookie : (decide (20 ≤ s.appLen) && be32 s'.app 4 == 0x2112A442) =
      (decide (20 ≤ s.appLen) && be32 s.app 4 == 0x2112A442) := by
    apply guarded_local
    intro hLen
    rw [h.app.be32 (by omega)]
  unfold stun
  rw [matchPayload_local h, h.appLen, hCookie]

theorem dns_local : dns s' = dns s := by
  have hPadding := padding_le s
  unfold dns
  simp only [h.appLen, padding_local h, Bool.and_assoc]
  apply guarded_local
  intro hLen
  simp (disch := omega) only [h.app.be16]

theorem dhcp_local : dhcp s' = dhcp s := by
  unfold dhcp
  simp only [h.appLen, Bool.and_assoc]
  apply guarded_local
  intro hLen
  simp (disch := omega) only [h.app.byte]

theorem rtcp_local : rtcp s' = rtcp s := by
  unfold rtcp
  simp only [h.appLen, Bool.and_assoc]
  apply guarded_local
  intro hLen
  simp (disch := omega) only [h.app.byte]

theorem rtp_local : rtp s' = rtp s := by
  unfold rtp
  simp only [h.appLen, Bool.and_assoc]
  apply guarded_local
  intro hLen
  simp (disch := omega) only [h.app.byte, h.app.be32]

theorem telnetNext_local (hLen : 2 ≤ s.appLen) : telnetNext s' = telnetNext s := by
  unfold telnetNext
  rw [h.app.byte (show 1 < s.appLen by omega)]

/-- The byte behind the first command is looked at only if it is there. -/
theorem telnet_local : telnet s' = telnet s := by
  unfold telnet
  simp only [h.appLen, Bool.and_assoc]
  apply guarded_local
  intro hLen
  rw [telnetNext_local h hLen, h.app.byte (show 0 < s.appLen by omega)]
  by_cases hNext : telnetNext s < s.appLen
  · rw [h.app.byte hNext]
  · simp only [hNext, decide_false, Bool.false_and]

theorem rip_local : rip s' = rip s := by
  unfold rip
  simp only [h.appLen, Bool.and_assoc]
  apply guarded_local
  intro hLen
  simp (disch := omega) only [h.app.byte, h.app.be16]

theorem dtls_local : dtls s' = dtls s := by
  unfold dtls
  simp only [h.appLen, Bool.and_assoc]
  apply guarded_local
  intro hLen
  simp (disch := omega) only [h.app.be16]

theorem tls_local : tls s' = tls s := by
  unfold tls
  simp only [h.appLen, Bool.and_assoc]
  apply guarded_local
  intro hLen
  simp (disch := omega) only [h.app.byte, h.app.be16]

theorem ike_local : ike s' = ike s := by
  unfold ike
  simp only [h.appLen, Bool.and_assoc]
  apply guarded_local
  intro hLen
  simp (disch := omega) only [h.app.byte, h.app.be32]

theorem bgp_local : bgp s' = bgp s := by
  unfold bgp
  simp only [h.appLen, Bool.and_assoc]
  apply guarded_local
  intro hLen
  simp (disch := omega) only [h.app.byte, h.app.be16, h.app.bytes]

theorem netflowV1_local : netflowV1 s' = netflowV1 s := by
  unfold netflowV1
  simp only [h.appLen, Bool.and_assoc]
  apply guarded_local
  intro hLen
  simp (disch := omega) only [h.app.be16, h.app.be32, h.app.bytes]

theorem netflowV5_local : netflowV5 s' = netflowV5 s := by
  unfold netflowV5
  simp only [h.appLen, Bool.and_assoc]
  apply guarded_local
  intro hLen
  simp (disch := omega) only [h.app.byte, h.app.be16, h.app.be32]

theorem netflow_local : netflow s' = netflow s := by
  unfold netflow
  simp only [h.appLen, netflowV1_local h, netflowV5_local h]
  apply guarded_local
  intro hLen
  simp (disch := omega) only [h.app.be16]

theorem radius_local : radius s' = radius s := by
  unfold radius
  simp only [h.appLen, Bool.and_assoc]
  apply guarded_local
  intro hLen
  simp (disch := omega) only [h.app.byte, h.app.be16]

/-- The mode letter is looked at only once the mode string was found. -/
theorem tftp_local : tftp s' = tftp s := by
  have hMode : (strlen s (2 + strlen s 2 + 1) != 0 &&
      isModeLetter (byte s'.app (2 + strlen s 2 + 1))) =
      (strlen s (2 + strlen s 2 + 1) != 0 &&
        isModeLetter (byte s.app (2 + strlen s 2 + 1))) := by
    by_cases hFound : strlen s (2 + strlen s 2 + 1) = 0
    · simp [hFound]
    · rw [h.app.byte (lt_of_strlen_ne_zero hFound)]
  unfold tftp
  simp only [h.appLen, strlen_local h, Bool.and_assoc, hMode]
  apply guarded_local
  intro hLen
  simp (disch := omega) only [h.app.be16]

theorem netbiosNameService_local : netbiosNameService s' = netbiosNameService s := by
  have hPadding := padding_le s
  unfold netbiosNameService
  simp only [h.appLen, padding_local h, Bool.and_assoc]
  apply guarded_local
  intro hLen
  simp (disch := omega) only [h.app.be16]

theorem netbiosSessionService_local : netbiosSessionService s' = netbiosSessionService s := by
  have hRest : (decide (4 ≤ s.appLen) && (byte s'.app 1 &&& 0xFE == 0 &&
      [0x00, 0x81, 0x82, 0x83, 0x84, 0x85].contains (byte s'.app 0))) =
      (decide (4 ≤ s.appLen) && (byte s.app 1 &&& 0xFE == 0 &&
        [0x00, 0x81, 0x82, 0x83, 0x84, 0x85].contains (byte s.app 0))) := by
    apply guarded_local
    intro hLen
    simp (disch := omega) only [h.app.byte]
  unfold netbiosSessionService
  simp only [h.appLen, h.netType, Bool.and_assoc, hRest]

theorem netbiosDatagramService_local : netbiosDatagramService s' = netbiosDatagramService s := by
  unfold netbiosDatagramService
  simp only [h.appLen, h.netType, Bool.and_assoc]
  by_cases hLen : 14 ≤ s.appLen
  · simp (disch := omega) only [h.app.byte, h.app.be16, h.app.be32]
  · simp only [hLen, decide_false, Bool.false_and]

theorem netbios_local : netbios s' = netbios s := by
  simp only [netbios, netbiosDatagramService_local h, netbiosSessionService_local h,
    netbiosNameService_local h]

theorem pptpRaw_local : pptpRaw s' = pptpRaw s := by
  unfold pptpRaw
  simp only [h.appLen, Bool.and_assoc]
  apply guarded_local
  intro hLen
  simp (disch := omega) only [h.app.be16, h.app.be32]

theorem pptpGre_local : pptpGre s' = pptpGre s := by
  unfold pptpGre
  simp only [h.flowLen, Bool.and_assoc]
  by_cases hLen : 8 ≤ s.flowLen
  · simp (disch := omega) only [h.flow.byte, h.flow.be16]
  · simp only [hLen, decide_false, Bool.false_and]

theorem pptp_local : pptp s' = pptp s := by
  simp only [pptp, h.netType, pptpRaw_local h, pptpGre_local h]

theorem l2tp_local : l2tp s' = l2tp s := by
  unfold l2tp
  simp only [h.appLen, Bool.and_assoc]
  apply guarded_local
  intro hLen
  simp (disch := omega) only [h.app.byte, h.app.be16]

theorem ntp_local : ntp s' = ntp s := by
  unfold ntp
  simp only [h.appLen]
  apply guarded_local
  intro hLen
  simp (disch := omega) only [h.app.byte]

theorem impp_local : impp s' = impp s := by
  unfold impp
  simp only [h.appLen, Bool.and_assoc]
  apply guarded_local
  intro hLen
  simp (disch := omega) only [h.app.byte, h.app.be16]

theorem openvpn_local : openvpn s' = openvpn s := by
  have hPadding := padding_le s
  unfold openvpn
  simp only [h.appLen, padding_local h, Bool.and_assoc]
  apply guarded_local
  intro hLen
  simp (disch := omega) only [h.app.byte, h.app.be16]

theorem syslog_local : syslog s' = syslog s := by
  unfold syslog
  simp only [h.appLen, Bool.and_assoc]
  apply guarded_local
  intro hLen
  simp (disch := omega) only [h.app.byte]

theorem ldapHead_local : ldapHead s' = ldapHead s := by
  unfold ldapHead
  simp only [h.appLen, Bool.and_assoc]
  apply guarded_local
  intro hLen
  simp (disch := omega) only [h.app.byte]

theorem snmpHead_local : snmpHead s' = snmpHead s := by
  unfold snmpHead
  simp only [h.appLen, Bool.and_assoc]
  apply guarded_local
  intro hLen
  simp (disch := omega) only [h.app.byte]

/-- Unless the message is cut, the operation type is a byte of the payload. -/
theorem ldap_local (hCut : ¬(ldapHead s = true ∧ s.appLen = 8 + byte s.app 7)) :
    ldap s' = ldap s := by
  unfold ldap
  rw [ldapHead_local h, h.appLen]
  cases hHead : ldapHead s with
  | false => simp only [Bool.false_and]
  | true =>
      have hFixed : 8 ≤ s.appLen := by
        simp only [ldapHead, Bool.and_eq_true, decide_eq_true_eq] at hHead
        exact hHead.1.1.1
      rw [h.app.byte (show 7 < s.appLen by omega)]
      simp only [Bool.true_and]
      apply guarded_local
      intro hLen
      rw [h.app.byte (lt_of_le_of_ne hLen fun hEnd => hCut ⟨hHead, hEnd.symm⟩)]

/-- Unless the message is cut, the third byte behind the community string is a
byte of the payload. -/
theorem snmp_local (hCut : ¬(snmpHead s = true ∧ s.appLen = 7 + byte s.app 6 + 2)) :
    snmp s' = snmp s := by
  unfold snmp
  rw [snmpHead_local h, h.appLen]
  cases hHead : snmpHead s with
  | false => simp only [Bool.false_and]
  | true =>
      have hFixed : 7 ≤ s.appLen := by
        simp only [snmpHead, Bool.and_eq_true, decide_eq_true_eq] at hHead
        exact hHead.1.1.1.1.1
      rw [h.app.byte (show 6 < s.appLen by omega)]
      simp only [Bool.true_and]
      apply guarded_local
      intro hLen
      rw [h.app.byte (lt_of_le_of_ne hLen fun hEnd => hCut ⟨hHead, hEnd.symm⟩)]

/-- Every detector of the table, for the protocols it is listed for. -/
theorem function_local (hLdap : ¬LdapCut s) (hSnmp : ¬SnmpCut s) :
    ∀ e ∈ apps, e.lists s.netType = true → e.function s' = e.function s := by
  have hOnly : ∀ proto, (proto == s.netType.toNat || ipprotoMax == s.netType.toNat) = true →
      s.netType.toNat = proto := by
    intro proto hLists
    have hByte := s.netType.toNat_lt
    simp only [Bool.or_eq_true, beq_iff_eq, ipprotoMax] at hLists
    omega
  simp only [apps, List.forall_mem_cons, Entry.lists, List.not_mem_nil, false_imp_iff,
    and_true, keyed_local h, stun_local h, dns_local h, dhcp_local h,
    rtcp_local h, rtp_local h, telnet_local h, rip_local h, dtls_local h, tls_local h, ike_local h,
    bgp_local h, netflow_local h, radius_local h, tftp_local h, netbios_local h, pptp_local h,
    l2tp_local h, ntp_local h, impp_local h, openvpn_local h, syslog_local h, cvs, sip, ftp, ssh,
    imap, smtp, pop3, http, rtsp, bittorrent, gnutella, xmpp, irc, iptype, excludePort_local h,
    implies_true, true_and]
  refine ⟨fun hLists => ldap_local h fun hCut => hLdap ⟨hOnly _ hLists, hCut⟩,
    fun hLists => snmp_local h fun hCut => hSnmp ⟨hOnly _ hLists, hCut⟩⟩

theorem test_local (hLdap : ¬LdapCut s) (hSnmp : ¬SnmpCut s) (number : Nat) :
    test s' number = test s number := by
  unfold test
  rw [h.netType]
  cases hFind : apps.find? fun e => e.app.number == number && e.lists s.netType with
  | none => rfl
  | some e =>
      have hLists := (Bool.and_eq_true _ _ ▸ List.find?_some hFind).2
      exact function_local h hLdap hSnmp e (List.mem_of_find?_eq_some hFind) hLists

theorem get_local (hLdap : ¬LdapCut s) (hSnmp : ¬SnmpCut s) : get s' = get s := by
  have hFind : (apps.find? fun e => e.lists s.netType && e.function s') =
      apps.find? fun e => e.lists s.netType && e.function s := by
    apply List.find?_congr
    intro e hMem
    cases hLists : e.lists s.netType with
    | false => rfl
    | true => rw [function_local h hLdap hSnmp e hMem hLists]
  simp only [get, h.netType, h.appLen, hFind]

end Detectors

/-- The same packet with another byte right behind its payload. -/
def behind (s : Seen) (value : UInt8) : Seen :=
  { s with app := Function.update s.app s.appLen value }

theorem behind_same (s : Seen) (value : UInt8) : Same s (behind s value) where
  appLen := rfl
  flowLen := rfl
  netType := rfl
  flowSport := rfl
  flowDport := rfl
  app := fun _ hi => Function.update_of_ne (Nat.ne_of_lt hi) _ _
  flow := fun _ _ => rfl

theorem byte_behind (s : Seen) (value : UInt8) : byte (behind s value).app s.appLen = value.toNat := by
  simp [byte, behind]

/-- On TCP the test for LDAP asks the LDAP detector. -/
theorem test_ldap (hTcp : s.netType.toNat = ipprotoTcp) : test s App.ldap.number = ldap s := by
  have hType : s.netType = 6 := UInt8.toNat_inj.mp hTcp
  unfold test
  rw [hType]
  rfl

/-- On UDP the test for SNMP asks the SNMP detector. -/
theorem test_snmp (hUdp : s.netType.toNat = ipprotoUdp) : test s App.snmp.number = snmp s := by
  have hType : s.netType = 17 := UInt8.toNat_inj.mp hUdp
  unfold test
  rw [hType]
  rfl

/-- A cut LDAP message is judged by the byte behind it. -/
theorem ldap_behind (hCut : LdapCut s) (value : UInt8) :
    ldap (behind s value) = ldapOp value.toNat := by
  obtain ⟨-, hHead, hLen⟩ := hCut
  have hMessage : byte (behind s value).app 7 = byte s.app 7 :=
    (behind_same s value).app.byte (by omega)
  have hOp := byte_behind s value
  rw [hLen] at hOp
  unfold ldap
  rw [ldapHead_local (behind_same s value), hHead, hMessage, hOp, (behind_same s value).appLen]
  simp [hLen]

/-- A cut SNMP message is judged by the byte behind it. -/
theorem snmp_behind (hCut : SnmpCut s) (value : UInt8) :
    snmp (behind s value) = snmpPdu value.toNat := by
  obtain ⟨-, hHead, hLen⟩ := hCut
  have hCommunity : byte (behind s value).app 6 = byte s.app 6 :=
    (behind_same s value).app.byte (by omega)
  have hPdu := byte_behind s value
  rw [hLen] at hPdu
  unfold snmp
  rw [snmpHead_local (behind_same s value), hHead, hCommunity, hPdu, (behind_same s value).appLen]
  simp [hLen]

/-- Inspection looks at announced bytes only, exactly when the payload is
neither an LDAP message cut behind its message number nor an SNMP message cut
two bytes behind its community string. -/
theorem looksOnlyAtPayload_iff_not_cut (s : Seen) :
    LooksOnlyAtPayload s ↔ ¬LdapCut s ∧ ¬SnmpCut s := by
  constructor
  · intro hLocal
    constructor
    · intro hCut
      have hBind := (hLocal _ (behind_same s 0x60)).2 App.ldap.number
      have hZero := (hLocal _ (behind_same s 0)).2 App.ldap.number
      rw [test_ldap hCut.1, test_ldap (s := behind s 0x60) hCut.1, ldap_behind hCut] at hBind
      rw [test_ldap hCut.1, test_ldap (s := behind s 0) hCut.1, ldap_behind hCut, ← hBind] at hZero
      exact absurd hZero (by decide)
    · intro hCut
      have hGet := (hLocal _ (behind_same s 0)).2 App.snmp.number
      have hNine := (hLocal _ (behind_same s 9)).2 App.snmp.number
      rw [test_snmp hCut.1, test_snmp (s := behind s 0) hCut.1, snmp_behind hCut] at hGet
      rw [test_snmp hCut.1, test_snmp (s := behind s 9) hCut.1, snmp_behind hCut, ← hGet] at hNine
      exact absurd hNine (by decide)
  · rintro ⟨hLdap, hSnmp⟩ s' hSame
    exact ⟨get_local hSame hLdap hSnmp, test_local hSame hLdap hSnmp⟩

/-- A TCP payload of nine bytes: an LDAP message up to its message number. -/
def cutBind : Seen :=
  { app := ofList [0x30, 0x84, 0, 0, 0, 0, 0x02, 1, 1]
    flow := ofList []
    appLen := 9
    flowLen := 29
    netType := 6
    flowSport := 1024
    flowDport := 389 }

/-- With a zero byte behind the payload it is undefined, with the remains of a
bind request it is LDAP. -/
theorem cutBind_depends_on_byte_behind :
    Same cutBind (behind cutBind 0x60) ∧ get cutBind = App.undefined.number ∧
      get (behind cutBind 0x60) = App.ldap.number ∧ test cutBind App.ldap.number = false ∧
      test (behind cutBind 0x60) App.ldap.number = true ∧ ¬LooksOnlyAtPayload cutBind := by
  have hTest : test cutBind App.ldap.number = false := by decide
  have hTest' : test (behind cutBind 0x60) App.ldap.number = true := by decide
  refine ⟨behind_same _ _, by decide, by decide, hTest, hTest', fun hLocal => ?_⟩
  have hEq := (hLocal _ (behind_same cutBind 0x60)).2 App.ldap.number
  rw [hTest, hTest'] at hEq
  exact Bool.noConfusion hEq

end Peak.Li
