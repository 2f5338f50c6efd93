namespace AgentConfig.Emoji

/-- What the capitals and signs in names stand for. -/
def parts : List (Char × String) :=
  [('A', "_arrow"), ('B', "_button"), ('C', "o’clock"), ('D', "_island"), ('E', "_and_"),
    ('F', "_face"), ('G', "_sign"), ('H', "heart"), ('I', "ing"), ('K', "_mark"), ('L', "ball"),
    ('M', "woman"), ('N', "hand"), ('O', "_of_"), ('P', "point"), ('Q', "square"), ('R', "ight"),
    ('S', "symbol"), ('T', "tion"), ('U', "_wheelchair"), ('W', "with_"), ('Y', "thirty"),
    ('Z', "land"), ('J', "er"), ('V', "le"), ('X', "ar"), ('$', "an"), ('%', "on"), (':', "in"),
    ('<', "ed_"), ('>', "ic"), ('?', "_c"), ('@', "st"), ('^', "_b"), ('|', "or"), ('~', "la"),
    (';', "en"), (',', "al")]

/-- Countries by their two letters, whose flags go by their names with or without `flag_for_` before
them. -/
def countries : String :=
  "0afgh$i@$=af 1lb$ia=al 2gJia=dz 1mJ>$_samoa=as 1nd|ra=ad 2go~=ao 3uil~=ai 2tXct>a=aq
  3igua_&^Xbuda=ag 1rg;t:a=ar 2m;ia=am 2uba=aw 1sc;si%D=ac 1u@r,ia=au 5ia=at 1zJbaij$=az 0bahamas=bs
  3ra:=bh 2ng~desh=bd 2rbados=bb 1elXus=by 3gium=be 3ize=bz 2n:=bj 2rmuda=bm 1hut$=bt 1olivia=bo
  2snia_&_hJzegov:a=ba 2tsw$a=bw 2uvetD=bv 1razil=br 2itish_:di$_oce$_tJrit|y=io 8virg:Ds=vg
  2unei=bn 1ulgXia=bg 2rk:a_faso=bf 3undi=bi 0cambodia=kh 3Jo%=cm 2nada=ca 4ryDs=ic 2pe_vJde=cv
  2ribbe$_nethJZs=bq 2ym$Ds=ky 1;tr,_afr>$_republ>=cf 2uta_&_melil~=ea 1had=td 2iV=cl 3na=cn
  2ri@masD=cx 1lippJt%D=cp 1olombia=co 2m|os=km 2okDs=ck 2@a_r>a=cr 1roatia=hr 1uba=cu 2raçao=cw
  1yprus=cy 1ôte_d’ivoire=ci 0d;mXk=dk 1iego_gXcia=dg 1jibouti=dj 1om:>a=dm 8n_republ>=do 0ecuad|=ec
  1gypt=eg 1l_s,vad|=sv 1quat|i,_gu:ea=gq 1ritrea=er 1@%ia=ee 1thiopia=et 1urope$_uni%=eu 0f,kZDs=fk
  2roeDs=fo 1iji=fj 2nZ=fi 1r$ce=fr 2;ch_gui$a=gf 7polynesia=pf 7southJn_tJrit|ies=tf 0gab%=ga
  2mbia=gm 1e|gia=ge 2rm$y=de 1h$a=gh 1ibr,tX=gi 1reece=gr 4nZ=gl 3nada=gd 1uadeloupe=gp 3m=gu
  3tema~=gt 2Jnsey=gg 2:ea=gn 2y$a=gy 0haiti=ht 1eXd_&_mcd%,dDs=hm 1%duras=hn 1ungXy=hu 0>eZ=is
  1ndia=in 3%esia=id 1r$=ir 3q=iq 2eZ=ie 1sVOm$=im 2rael=il 1t,y=it 0jama>a=jm 1Jsey=je 1|d$=jo
  0kazakh@$=kz 1;ya=ke 1iribati=ki 1osovo=xk 1uwait=kw 1yrgyz@$=kg 0~os=la 2tvia=lv 1eb$%=lb
  2sotho=ls 1ibJia=lr 3ya=ly 2echt;@e:=li 2thu$ia=lt 1uxembourg=lu 0maced%ia=mk 2dagascX=mg 2~wi=mw
  4ysia=my 3dives=mv 3i=ml 3ta=mt 2rsh,lDs=mh 3t:ique=mq 2urit$ia=mr 6ius=mu 2yotte=yt 1ex>o=mx
  1>r%esia=fm 1oldova=md 2naco=mc 3golia=mn 3t;egro=me 4sJrat=ms 2rocco=ma 2zambique=mz 0namibia=na
  2uru=nr 1ep,=np 2thJZs=nl 2w?aVd%ia=nc 4zeaZ=nz 1>Xagua=ni 2gJ=ne 5ia=ng 2ue=nu 1|folkD=nf
  3th_k|ea=kp 5Jn_mXi$aDs=mp 3way=no 0om$=om 0paki@$=pk 2~u=pw 3e@:i$_tJrit|ies=ps 2nama=pa
  2pua_new_gu:ea=pg 2raguay=py 1Ju=pe 1hilipp:es=ph 1itcairnDs=pn 1oZ=pl 2rtug,=pt 1uJto_r>o=pr
  0qatX=qa 0rom$ia=ro 1ussia=ru 1w$da=rw 1éuni%=re 0samoa=ws 2n_mX:o=sm 2udi_Xabia=sa 1;eg,=sn
  2rbia=rs 2ychelVs=sc 1iJra_V%e=sl 2ngap|e=sg 3t_maXt;=sx 1lovakia=sk 4;ia=si 1olom%Ds=sb 2m,ia=so
  2uth_afr>a=za 6ge|gia_&_south_s$dw>hDs=gs 6k|ea=kr 6sud$=ss 1pa:=es 1ri_l$ka=lk 1t.^XthéVmy=bl
  4heVna=sh 4kitts_&_nevis=kn 4lucia=lc 4mXt:=mf 4piJre_&_miquel%=pm 4v:c;t_&_gr;ad:es=vc 1ud$=sd
  2r:ame=sr 1v,bXd_&_j$_may;=sj 1waziZ=sz 2ed;=se 2itzJZ=ch 1yria=sy 1ão_tomé_&_príncipe=st
  0taiw$=tw 2jiki@$=tj 2nz$ia=tz 1haiZ=th 1ogo=tg 2ke~u=tk 2nga=to 1r:idad_&_tobago=tt
  3@$_da?unha=ta 1unisia=tn 2rkm;i@$=tm 4s_&?a>osDs=tc 2v,u=tv 0u.s._outlyIDs=um 5virg:Ds=vi
  1g$da=ug 1kra:e=ua 1nit<Xab_emirates=ae 7kIdom=gb 7@ates=us 1ruguay=uy 1zbeki@$=uz 0v$uatu=vu
  2t>$?ity=va 1;ezue~=ve 1ietnam=vn 0w,lis_&_futuna=wf 1e@Jn_sahXa=eh 0yem;=ye 0zambia=zm
  1imbabwe=zw 0åZDs=ax"

/-- Professions of men and women, with what they work with. -/
def professions : String :=
  "0Xti@🎨 1@r%aut🚀 0cook🍳 0fact|y_w|kJ🏭 2rmJ🌾 1irefRJ🚒 0he,th_w|kJ⚕️ 0judge⚖️ 0mech$>🔧 0off>e_w|kJ💼
  0pilot✈️ 0sci;ti@🔬 1IJ🎤 1tud;t🎓 0teachJ🏫 2chnologi@💻"

def activities : String :=
  "0bikI🚴 1ouncI_L⛹️ 2wI🙇 0cXtwheelI🤸 1limbI🧗 0facep,mI🤦 1rownI🙍 0ge@urI_no🙅 aok🙆 2ttI_haircut💇
  8massage💆 1olfI🏌️ 0:_lotus_posiT🧘 3@eamy_room🧖 0jugglI🤹 0liftI_weRs🏋️ 0mounta:^ikI🚵 0p~yI_NL🤾
  8watJ_polo🤽 1outI🙎 0raisI_N🙋 1owI^oat🚣 1unnI🏃 0shruggI🤷 1urfI🏄 1wimmI🏊 0tippI_N💁 0w,kI🚶
  1eXI_turb$👳"

/-- Persons that go by a name of their own, men and women among them. -/
def roles : String :=
  "0c%@rucT_w|kJ👷 0detective🕵️ 0elf🧝 0fairy🧚 0guXd💂 0mage🧙 0pol>e_off>J👮 0vampire🧛"

/-- Other persons and parts of the body, which come in all tones of skin. -/
def toned : String :=
  "0adult🧑 0baby👶 4_$gel👼 2ckN_:dex_PI_down👇 oVft👈 orR👉 oup👆 1eXd<pJs%🧔 1l%d-hair<m$👱‍♂️ dpJs%👱
  dM👱‍♀️ 1oy👦 1rea@-feedI🤱 2ide_Wveil👰 0c,l_me_N🤙 1hild🧒 1~ppI_Ns👏 1ross<fIJs🤞 0eX👂 0fVx<b>eps💪
  1old<Ns🙏 0girl👧 0N_WfIJs_sp~yed🖐 1|se_racI🏇 0:dex_PI_up☝ 0Vft-facI_fi@🤛 1ove-you_ge@ure🤟 0m$👨
  3_d$cI🕺 4:_suit_VvitatI🕴 7tuxedo🤵 4Wch:ese?ap👲 1Jmaid🧜‍♀️ 5n🧜‍♂️ 3pJs%🧜 1iddV_fIJ🖕 1rs.?~us🤶
  0nail_polish💅 1ose👃 0ok_N👌 1ld_m$👴 4M👵 3J_adult🧓 1ncomI_fi@👊 1p;_Ns👐 0p,ms_up_togethJ🤲 1Js%_:^ed🛌
  7takI^ath🛀 1regn$t_M🤰 2:ce🤴 6ss👸 0rais<backON🤚 7fi@✊ 7N✋ 4I_Ns🙌 1R-facI_fi@🤜 0s$ta?~us🎅 1elfie🤳
  1ignOthe_h|ns🤘 1nowboXdJ🏂 0thumbs_down👎 7up👍 0v>t|y_N✌ 1ulc$_s,ute🖖 0wavI_N👋 1om$👩 5_d$cI💃
  6WheadscXf🧕 1ritI_N✍"

def others : String :=
  "0+1👍 0-1👎 0100💯 1234🔢 1@_p~ce_med,🥇 02nd_p~ce_med,🥈 03rd_p~ce_med,🥉 08L🎱 0__1👎 0a🅰
  1B_(blood_type) 1b🆎 2B_(blood_type) 2acus🧮 2c🔤 3d🔡 1ccept🉑 1dhesive^$dage🩹 2missi%_t>kets🎟
  1Ji,_tramway🚡 1irpl$e✈ 8_Xriv,🛬 eI 9depXture🛫 1lXm?lock⏰ 2emb>⚗ 2i;👽 5_m%@J👾 1mbul$ce🚑 2J>$_footL🏈
  2ph|a🏺 1nch|⚓ 2gel👼 4r💢 5_S 3ry😠 5F a_Wh|ns👿 3uished😧 9F 2t🐜 3;na^Xs📶 2xiousF_Wsweat😰 1ppV🍎
  1quXius♒ 1ries♈ 2row^ackwXd◀ 6doubV_down⏬ dup⏫ 8wn⬇ a_sm,l🔽 6f|wXd▶ 6headI_down⤵ eup⤴ 6Vft⬅
  7owJ_Vft↙ crR↘ 6rR➡ b_hook↪ 6up⬆ 8_down↕ 9sm,l🔼 8pJ_Vft↖ crR↗ 5s?lockwise🔃 8ountJclockwise🔄 2t🎨
  3>u~t<l|ry🚛 4@_paVtte🎨 1@%ished😲 aF 1thVt>_shoe👟 2m🏧 3G 2om_S⚛ 1uto_r>kshaw🛺 4mobiV🚗 1vocado🥑 1xe🪓
  0b🅱 1B_(blood_type) 1aby^ottV🍼 5ch>k🐤 5S🚼 2ck🔙 4A 3%🥓 2dgJ🦡 3m:t%🏸 9_racquetEshuttVcock 2gel🥯
  3gage?~im🛄 3uette^read🥖 2l$ce_scaV⚖ 3d🦲 4_m$👨‍🦲 5M👩‍🦲 3Vt_shoes🩰 4o%🎈 5t^ox_WLot🗳 gcheck☑ 2mboo🎍
  2n$a🍌 3gb$g‼ 3jo🪕 3k🏦 2r?hXt📊 3bJ💈 6_poV 2seL⚾ 3ket🧺 6L🏀 2t🦇 3h🛀 4tub🛁 3tJy🔋 1each_Wumbrel~🏖
  3mIF_WsmilI_eyes😁 3r🐻 4F 3tI_H💓 2d🛏 2e🐝 3r🍺 4_mug 4s🍻 3tV🐞 2g:nJ🔰 2ll🔔 4_Ws~sh🔕 4hop^ell🛎 2nto🍱
  5^ox 2vJage^ox🧃 1>ycV🚲 6i@🚴 2ke🚲 3:i👙 2lVd?ap🧢 2ohazXd☣ 9G 2rd🐦 3thday🎂 8?ake 1~ck?ircV⚫
  c_f|_rec|d⏺ 6f~g🏴 6H🖤 6jokJ🃏 6lXge_Q⬛ 7eft__PI_doubV_tri$gV_WvJt>,^X⏮ 6medium-sm,l_Q◾ c_sm,l_Q
  equXe◼ 6nib✒ 6rR__PI_doubV_tri$gV_WvJt>,^X⏭ mtri$gV_WdoubV_vJt>,^X⏯ 6sm,l_Q▪ 7quXeB🔲 df|_@op⏹
  2ossom🌼 3wfish🐡 2ue^ook📘 5cX🚙 6ircV🔵 5H💙 5Q🟦 3sh😊 1oX🐗 3t⛵ 2mb💣 2ne🦴 2ok📖 4mXk🔖 8_tabs📑 4s📚 3m💥
  3t👢 2ttV_WpoppI?|k🍾 2uquet💐 2w🙇 3_$dA🏹 3l_Wspo%🥣 4I🎳 2xI_glove🥊 1ra:🧠 2ead🍞 2>k🧱 3dge_at_nR🌉
  3efcase💼 5s🩲 3ghtB🔆 2occoli🥦 3k;_H💔 3om🧹 3wn?ircV🟤 6H🤎 6Q🟫 1ug🐛 2ildI?%@rucT🏗 2lb💡 3Vt_tra:🚅
  6tra:_fr%t cside🚄 2rrito🌯 2s🚌 3_@op🚏 3@op 3t_:_silhouette👤 4s_:_silhouette👥 2ttJ🧈 6fly🦋 0cactus🌵
  2ke🍰 2VndX📆 3lI📲 2mel🐫 4ra📷 6_Wf~sh📸 3pI🏕 2ncJ♋ 3dV🕯 4y🍬 3n<food🥫 3oe🛶 2pit,_abcd🔠 3r>|n♑ 2r🚗
  3d_fiV^ox🗃 5:dex📇 a_dividJs🗂 3ousel_h|se🎠 3p_@reamJ🎏 3rot🥕 2@V🏰 2t🐱 32🐈 3F🐱 8_WteXsOjoy😹
  ewry_smiV😼 1d💿 1ha:s⛓ 4r🪑 3rt💹 5_decreasI📉 6:creasI📈 g_Wy;💹 6WdownwXds_tr;d📉 bupwXds_tr;d📈
  2eckJ<f~g🏁 3ese_wedge🧀 3quJ<f~g🏁 3rries🍒 5y^lossom🌸 3ss_pawn♟ 4tnut🌰 2>k;🐔 3ldr;?rossI🚸 3pmunk🐿
  2oco~te^X🍫 3p@>ks🥢 2ri@mas_tree🎄 2urch⛪ 1igXette🚬 2nema🎦 2rcVd_mⓂ 4us_t;t🎪 2ty_sunrise🌇 8set🌆
  4scape🏙 9_at_dusk🌆 1l🆑 2B 2amp🗜 3p👏 4pJ🎬 7^oXd 3ss>,^uildI🏛 2:kI^eJ_mugs🍻 9g~sses🥂 3pboXd📋 2ock1🕐
  60🕙 730🕥 61🕚 730🕦 62🕛 730🕧 630🕜 52🕑 630🕝 53🕒 630🕞 54🕓 630🕟 55🕔 630🕠 56🕕 630🕡 57🕖 630🕢 58🕗 630🕣 59🕘
  630🕤 5wise_vJt>,As🔃 3s<book📕 7lock_Wkey🔐 7mailbox_WlowJ<f~g📪 krais<f~g📫 7umbrel~🌂 3ud☁ 5_WlRnI🌩
  kEra:⛈ bra:🌧 bsnow🌨 bt|nado🌪 3wnF🤡 2ub_suit♣ 4s 3tch^ag👝 1oat🧥 2cktail🍸 8_g~ss 3%ut🥥
  4s_(keelI)Ds🇨🇨 2ffee☕ 4:⚰ 2ldF🥶 5sweat😰 3lisi%💥 2met☄ 3pass🧭 4ressi%🗜 4utJ💻 8_disk💽 9mouse🖱
  2nfetti_L🎊 4ounded😖 aF 4used😕 8F 3go_-^razzavilV🇨🇬 8k:shasa🇨🇩 4ratu~Ts㊗ 3@rucT🚧 3trol_knobs🎛
  3v;i;ce_@|e🏪 2ok<r>e🍚 4ie🍪 5ng🍳 3l🆒 4B 2p👮 3yrR=© 2rn🌽 2uchE~mp🛋 3ntJclockwiseAsB🔄 3pV👫 6_WH💑
  h_m$_m$👨‍❤️‍👨 iM_m$👩‍❤️‍👨 oM👩‍❤️‍👩 6kiss💏 2w🐮 32🐄 3F🐮 3boy_hatF🤠 1rab🦀 3y%🖍 2edit?Xd💳 3sc;t_mo%🌙
  2>ket🦗 7^atEL🏏 8game 2ocodiV🐊 3iss$t🥐 3ssK❌ aB❎ 5<f~gs🎌 8sw|ds⚔ 3wn👑 2y😢 3I?atF😿 7face😢 3@,_L🔮
  1ucumbJ🥒 2p_W@raw🥤 3cake🧁 3id💘 2rlI_@%e🥌 4y-hair<m$👨‍🦱 dM👩‍🦱 5_hair🦱 6loop➰ 3r;cy_exch$ge💱 4y🍛
  5_r>e 2@Xd🍮 4oms🛃 2tOmeat🥩 1ycl%e🌀 1zechia🇨🇿 0daggJ🗡 6_knife 2ncJ💃 6s👯 3go🍡 2rk_sk:_t%e🏿
  6ung~sses🕶 3t🎯 2sh💨 4I_away 2te📅 1eaf_pJs%🧏 2ciduous_tree🌳 2J🦌 2livJy_truck🚚 2pXtm;t_@|e🏬
  2rel>t_house🏚 e^uildI 2sJt🏜 6D🏝 3ktop?omputJ🖥 1iam%d_shape_Wa_dot_:side💠 9uit♦ 8Wa_dot💠 7s♦ 2mB🔅
  2rect_hit🎯 2sapPed😞 cF drelieved😥 2vI_mask🤿 2ya_~mp🪔 2zzy💫 5F😵 1na🧬 1o_not_littJ🚯 2g🐶 32🐕 3F🐶
  2llX💵 6^$knote 4s🎎 3ph:🐬 2|🚪 2tt<six-P<@X🔯 2ubV?urly_loop➿ 7exc~maTK‼ 7vJt>,^X⏸ 3ghnut🍩 2ve🕊
  4Opeace 2wn-VftA↙ 5rRA↘ 4A⬇ 4ca@F_Wsweat😓 4wXdsB🔽 1rag%🐉 6F🐲 2ess👗 2omedXy?amel🐪 3olIF🤤 3pOblood🩸
  4Vt💧 2um🥁 1uck🦆 2mplI🥟 1vd📀 0e-mail📧 1__mail 1agV🦅 2rOc|n🌽 7r>e🌾 4WheXI_aid🦻 3th_afr>a🌍 7mJ>as🌎
  7sia🌏 1gg🍳 3pl$t🍆 1R=8️⃣ 5-P<@X✴ 6spok<a@Jisk✳ 6Y🕣 5_C🕗 6P<b~ck_@X✴ 6spok<a@Jisk✳ 1jectB⏏ 6S
  1Vctr>_plug🔌 3ph$t🐘 3v;-Y🕦 6_C🕚 1mail✉ 2oji_modifiJ_fitzpatr>k_type__1__2🏻 x3🏼 x4🏽 x5🏾 x6🏿 1nd🔚 3A
  2gZ🏴󠁧󠁢󠁥󠁮󠁧󠁿 2velope✉ 8_withA📩 1uro💶 4^$knote 4pe$?a@V🏰 9po@_off>e🏤 1vJgre;_tree🌲 1we🐑 1xc~maT❗ bK
  cquesTK⁉ 2plodI_head🤯 3ressi%Vss😑 eF 1ye👁 3_:_speech^ubbV👁️‍🗨️ 3g~sses👓 3s👀 0face^lowI_a_kiss😘
  5sav|I_food😋 6creamI_:_feX😱 5vomitI🤮 5WN_ovJ_mouth🤭 bead-b$dage🤕 e_^$dage amed>,_mask😷 b%ocV🧐
  aop;_mouth😮 arais<eyebrow🤨 bollI_eyes🙄 a@eam_from_nose😤 bymbols_%_mouth🤬 ateXsOjoy😂 bhJmometJ🤒
  b%gue😛 9out_mouth😶 4punch👊 3t|y🏭 2~fel🧆 3Vn_Vaf🍂 2mily👪 6_m$^oy👨‍👦 e^oy👨‍👦‍👦 bgirl👨‍👧 f^oy👨‍👧‍👦
  ggirl👨‍👧‍👧 bm$^oy👨‍👨‍👦 i^oy👨‍👨‍👦‍👦 fgirl👨‍👨‍👧 j^oy👨‍👨‍👧‍👦 kgirl👨‍👨‍👧‍👧 bM^oy👨‍👩‍👦 k^oy👨‍👩‍👦‍👦
  hgirl👨‍👩‍👧 l^oy👨‍👩‍👧‍👦 mgirl👨‍👩‍👧‍👧 7M^oy👩‍👦 g^oy👩‍👦‍👦 dgirl👩‍👧 h^oy👩‍👧‍👦 igirl👩‍👧‍👧 dM^oy👩‍👩‍👦
  m^oy👩‍👩‍👦‍👦 jgirl👩‍👩‍👧 n^oy👩‍👩‍👧‍👦 ogirl👩‍👩‍👧‍👧 2@-f|wXdB⏩ 4_downB⏬ 5f|wXd⏩ 5revJseB⏪ 5upB⏫ 2x📠
  3_mach:e 1eXful😨 7F 2et🐾 2maVG♀ 2rris_wheel🎡 4y⛴ 1ield_hockey🏑 c_@>kEL 2V?ab:et🗄 5foldJ📁
  3m_frames🎞 5project|📽 2re🔥 4_;g:e🚒 6xtIuishJ🧯 4crackJ🧨 4w|ks🎆 3@_quXtJ_mo%🌓 iF🌛 jwithF 2sh🐟 4?ake🍥
  9_Wswirl 4I_poV🎣 cEfish 3t✊ 2ve=5️⃣ 4-Y🕠 4_C🕔 1~g_f|?ocos_Ds🇨🇨 bngo___^razzavilV🇨🇬 ik:shasa🇨🇩
  azech_republ>🇨🇿 9gu:ea_^issau🇬🇼 9h%g_k%g🇭🇰 9jap$🇯🇵 9macau🇲🇴 ay$mX🇲🇲 9tim|__V@e🇹🇱 aurkey🇹🇷 5:_hoV⛳
  4s🎏 3mIo🦩 3shlR🔦 3t_shoe🥿 2eur-de-lis⚜ 5__de__lis 2ippJ🐬 2oppy_disk💾 3wJ_p~yI?Xds🎴 2ushed😳 7F
  2yI_disc🥏 7saucJ🛸 1og🌫 3gy🌁 2ot🦶 4L🏈 4pr:ts👣 2rkEknife🍴 e_Wp~te🍽 3tune?ookie🥠 2unta:⛲ 8_p;🖋 3r=4️⃣
  4-Y🕟 4_Vaf?lovJ🍀 5C🕓 2xF🦊 1rame_Wp>ture🖼 5d_p>ture 2ee🆓 4B 3nch_fries🍟 2i<shrimp🍤 4s🍟 2og🐸 4F
  3nt-facI^aby?h>k🐥 3wnI😦 8F☹ d_Wop;_mouth😦 1uel_pump⛽ 4pump 2ll_mo%🌕 9F🌝 awithF 2nJ,_urn⚱
  0game_die🎲 2rl>🧄 1eX⚙ 2m💎 3_@%e 3:i♊ 2nie🧞 1ho@👻 1ift🎁 4_H💝 2raffe🦒 1~ssOmilk🥛 5es👓
  2obe_showI_amJ>as🌎 fsia-au@r,ia🌏 eeurope-afr>a🌍 6WmJidi$s🌐 3ves🧤 3wI_@X🌟 1o,_net🥅 3t🐐 2bl:👺 2ggVs🥽
  2lf⛳ 4J🏌 2ril~🦍 1raduaT?ap🎓 3pes🍇 2e;_appV🍏 6book📗 6circV🟢 6H💚 6sa~d🥗 7quXe🟩 3y_exc~maT❕ 5quesT❔
  2imacI😬 9F 3n😁 4nI😀 8?atF😺 h_WsmilI_eyes😸 9face😀 d_Wbig_eyes😃 jsmilI_eyes😄 kweat😅 9squ:tIF😆
  2owI_H💗 1uXdsm$💂 2ide_dog🦮 3nea-bissau🇬🇼 3tX🎸 2n🔫 0haircut💇 2mburgJ🍔 3mJ🔨 6Ep>k⚒ bwr;ch🛠 3@J🐹 7F
  2nd✋ 4bag👜 4shake🤝 3key💩 2tch<ch>k🐥 5I?h>k🐣 1eadph%e🎧 9s 3r-no-evil_m%key🙉 4_no_evil 4t❤ 5_dec|aT💟
  6eyes😍 a?at😻 6suit♥ 6withA💘 bribb%💝 5beat💓 5pulse💗 5s♥ 3vy?heckK✔ 6divisi%G➗ 7ollXG💲 6exc~maTK❗
  6H_exc~maT❣ nK_|nam;t 6lXge?ircV⭕ 6m:usG➖ 7ultipl>aT_x✖ 6plusG➕ 2dgehog🦔 2l>optJ🚁 3m_S⎈
  4et_Wwhite?ross⛑ 2rb🌿 1ibiscus🌺 2gh-heeVd_shoe👠 5spe<tra:🚄 4^rRness🔆 5heel👠 5voltage⚡ 2kI^oot🥾
  2ndu_tempV🛕 2ppopotamus🦛 1ocho🔪 2V🕳 2ney_pot🍯 5bee🐝 3g_k%g_sX?h:a🇭🇰 2riz%t,_traff>_lR🚥 3se🐴 5F
  2spit,🏥 2t^evJage☕ 4dog🌭 4face🥵 4peppJ🌶 4sprIs♨ 3el🏨 3sprIs♨ 2urg~ss⌛ 9_d%e aflowI_s$d⏳ anot_d%e
  3se🏠 5^uildIs🏘 6WgXd;🏡 5s🏘 1uggIF🤗 2ndr<Ps💯 2shed😯 6F 0>e🧊 3?ream🍨 4hockey🏒 a_@>kEpuck 4skate⛸
  3cream🍦 1d🆔 2B 2eograph_adv$tage🉐 1mp👿 1nbox_tray📥 2comI_;velope📨 2f:ity♾ 3|maTℹ b_desk_pJs%💁
  csourceℹ 2noc;t😇 2put_~t:_VttJs🔤 dowJcase🔡 cuppJcase🔠 6numbJs🔢 6Ss🔣 2tJrob$g⁉ 1ph%e📱
  1zakaya_l$tJn🏮 0jack-o-l$tJn🎃 4_o_l$tJn 2p$🗾 5ese_acceptabVB🉑 appl>aTB🈸 9bXga:B🉐 9ca@V🏯
  a%gratu~TsB㊗ 9discountB🈹 aolls🎎 9freeOchXgeB🈚 9gobl:👺 9hJeB🈁 9m%thly_amountB🈷 9no_vac$cyB🈵
  bt_freeOchXgeB🈶 9ogre👹 ap;_f|^us:essB🈺 9passI_gradeB🈴 ao@_off>e🏣 arohibitedB🈲 9resJvedB🈯 9secretB㊙
  brv>e?hXgeB🈂 aymbol_f|^eg:nJ🔰 9vac$cyB🈳 1e$s👖 1igsaw🧩 1okJ🃏 2y😂 3?at😹 3@>k🕹 0kaaba🕋 2ngXoo🦘 1ey🔑
  3boXd⌨ 3cap_#=#️⃣ 7*=*️⃣ 70=0️⃣ 71=1️⃣ 80🔟 72=2️⃣ 73=3️⃣ 74=4️⃣ 75=5️⃣ 76=6️⃣ 77=7️⃣ 78=8️⃣ 79=9️⃣
  7a@Jisk=*⃣ 7digit_eR=8⃣ dfive=5⃣ eour=4⃣ dn:e=9⃣ d%e=1⃣ dsev;=7⃣ eix=6⃣ dthree=3⃣ ewo=2⃣ dzJo=0⃣
  7numbJG=#⃣ 1>k_scootJ🛴 2m%o👘 2ss💋 4_m$_m$👨‍❤️‍💋‍👨 7rk💋 5M_m$👩‍❤️‍💋‍👨 bM👩‍❤️‍💋‍👩 4I😗 7?at😽 bF
  9los<eyes😚 8face😗 c_Wclos<eyes😚 ismilI_eyes😙 8H😘 8smilI_eyes😙 2tch;_knife🔪 3e🪁 2wi_fruit🥝 1nife🔪
  1oa~🐨 2ko🈁 0~b?oat🥼 3el🏷 2crosse🥍 2dy^eetV🐞 2ntJn🏮 2ptop?omputJ💻 2rge^lue?ircV🔵 bdiam%d🔷
  6|$ge_diam%d🔶 2@_quXtJ_mo%🌗 hF🌜 iwithF 5trackB⏮ 2t:?ross✝ 2ughI😆 1eaf_fluttJI_:_w:d🍃 4y_gre;🥬
  3ves🍃 2dgJ📒 2ft-rRA↔ 4A⬅ a?urvI_rR↪ 5luggage🛅 5rRA↔ 5speech^ubbV🗨 4wXdsA_Whook↩ 2g🦵 2m%🍋 2o♌ 3pXd🐆
  2vel_slidJ🎚 1ibra♎ 2ght^ulb💡 6rail🚈 6sk:_t%e🏻 2nk🔗 4<papJclips🖇 2%F🦁 2ps👄 4t>k💄 2ttJ_:^:G🚮 2zXd🦎
  1~ma🦙 1ob@J🦞 2ck🔒 4_W:k_p;🔏 4ed🔒 6_Wkey🔐 cp;🔏 3omotive🚂 2llipop🍭 2op➿ 2T^ottV🧴 2ud_sound🔊
  4ly?ryIF😭 4speakJ📢 2ve_hotel🏩 5VttJ💌 2w^rRness🔅 3J_Vft_LP_p;🖊 bcray%🖍 bfounta:_p;🖋 bpa:tbrush🖌
  1uggage🧳 1yIF🤥 0mⓂ 1acau_sX?h:a🇲🇴 2g🔍 3_rR🔎 3net🧲 4ifyI_g~ss_tilt<Vft🔍 orR🔎 2hj%g🀄 7_r<drag%
  2ilbox📫 7?losed📪 8Wmail📬 dno_mail📭 2VG♂ 2nEM_holdI_Ns👫 4g;ie🧞‍♂️ 4:^us:ess_suit_VvitatI🕴 7m$u,U👨‍🦽
  8ot|izedU👨‍🦼 4Wgua_pi_mao👲 9probI?$e👨‍🦯 9turb$👳 4zombie🧟‍♂️ 3go🥭 3s_shoe👞 3telpiece?lock🕰 3u,U🦽
  3’s_shoe👞 2pOjap$🗾 3V_Vaf🍁 2rti,_Xts_unif|m🥋 2sk😷 3sage💆 2te🧉 1eat_%^%e🍖 2ch$>,_Xm🦾 bVg🦿 2d>,_S⚕
  4um_dXk_sk:_t%e🏾 7lR_sk:_t%e🏼 7sk:_t%e🏽 2ga📣 4ph%e 2l%🍈 2mo📝 2n_Wbunny_eXs👯‍♂️ 5re@lI🤼‍♂️ 3|ah🕎
  7_Wn:e^r$ches 3s🚹 3’s_room 2tro🚇 1>robe🦠 5ph%e🎤 5scope🔬 2litXy_med,🎖 3ky_way🌌 2nibus🚐 4disc💽 1oai🗿
  2biV_ph%e📱 c_off📴 dwithA📲 2ney-mouthF🤑 5__mouthF 6bag💰 6WwIs💸 5bag💰 3key🐒 6F🐵 3|ail🚝 2%🌔 4?ake🥮
  5viewI?Jem%y🎑 2rtX^oXd🎓 2sque🕌 5ito🦟 2t|^oat🛥 6scootJ🛵 5cycV🏍 5izedU🦼 5way🛣 2unt_fuji🗻 5a:⛰
  8^>ycli@🚵 9cabVway🚠 9railway🚞 3se🐭 52🐁 5F🐭 3th👄 2vie?amJa🎥 2yai🗿 1uscV💪 3hroom🍄 3>,_keyboXd🎹
  8note🎵 cs🎶 8sc|e🎼 2te🔇 4d_speakJ 1y$mX_(burma)🇲🇲 0nail?Xe💅 2me^adge📛 2T,_pXk🏞 2useatedF🤢
  2zX_amuVt🧿 1ecktie👔 2gative_Qd?rossK❎ 2rdF🤓 2utr,F😐 2w🆕 3B 4mo%🌑 8F🌚 9withF 3spapJ📰 2xt_trackB⏭
  1g🆖 2B 1R_W@Xs🌃 2ne=9️⃣ 4-Y🕤 4_C🕘 1o^ell🔕 4>ycVs🚳 3;try⛔ 8G🚫 3good🙅 3littJI🚯 3mobiV_ph%es📵 5uth😶
  3%e_undJ_eRe;🔞 3pede@ri$s🚷 3smokI🚭 2n-potabV_watJ🚱 3__potabV_watJ 2tebook📓 8_Wdec|ative?ovJ📔 4s🎶
  1utEbolt🔩 0o⭕ 12🅾 1B_(blood_type) 1ce$🌊 2topus🐙 1d;🍢 1ff>e🏢 6^uildI 1gre👹 1il_drum🛢 1k🆗 2B 3M🙆
  1ld_key🗝 3J_m$👴 6M👵 1m🕉 2_S 1n🔛 2!A 2comI_automobiV🚘 9bus🚍 9pol>e?X🚔 9taxi🚖 2e=1️⃣
  3-piece_swimsuit🩱 4Y🕜 3_C🕐 2i%🧅 1p;^ook📖 5fiV_foldJ📂 5mailbox_WlowJ<f~g📭 irais<f~g📬 6outh😮
  2hiuchus⛎ 2t>,_disk💿 1r$ge^ook📙 7circV🟠 7H🧡 7Q🟧 5ut$🦧 2thodox?ross☦ 1ttJ🦦 1utbox_tray📤 1wl🦉 1x🐂
  1y@J🦪 0pB🅿 1ackage📦 2ge_facI_up📄 5Wcurl📃 4r📟 2:tbrush🖌 2lm_tree🌴 2ncakes🥞 3daF🐼 2pJclip📎 2rkI🅿
  3rot🦜 3t_,tJnaTK〽 4ly_sunny⛅ 4y_poppJ🎉 5IF🥳 2ss;gJ_ship🛳 4p|t?%trol🛂 2useB⏸ 2w_pr:ts🐾 1eace_S☮ 4h🍑
  4ock🦚 3nuts🥜 3r🍐 2n🖊 3cil📝 62✏ 3gu:🐧 3sive😔 7F 2opV_holdI_Ns🧑‍🤝‍🧑 7Wbunny_eXs👯 8re@lI🤼 2rf|mI_Xts🎭
  3sevJe😣 8IF 4%_f;cI🤺 7kneelI🧎 7@$dI🧍 7WL⛹ dl%d_hair👱 cpoutIF🙎 2tri_dish🧫 1h%e☎ 1>k⛏ 2e🥧 2g🐷 32🐖
  3F🐷 4nose🐽 2VOpoo💩 3l💊 2nchI_N🤏 3e_dec|aT🎍 4appV🍍 3g_p%g🏓 2rate_f~g🏴‍☠️ 2sces♓ 3tol🔫 2zza🍕
  1~ceOw|ship🛐 3yB▶ 5|_pauseB⏯ 2eadIF🥺 1o:t_down👇 6Vft👈 6rR👉 6up☝ 8_2👆 2l>e?X🚓 a_lR🚨 2odV🐩 3l_8_L🎱
  3p💩 2pc|n🍿 2@_off>e🏣 4,_h|n📯 4box📮 2tOfood🍲 3abV_watJ🚰 4to🥔 2uch👝 3ltry_Vg🍗 3nd💷 5^$knote 3tI?at😾
  bF 8face😡 1ray🙏 4J^eads📿 2etzel🥨 2:tJ🖨 2obI?$e🦯 3hibited🚫 1unch👊 2rpV?ircV🟣 7H💜 7Q🟪 3se👛 2shp:📌
  2t_littJ_:_its_p~ce🚮 0quesT❓ 8K 0rabbit🐰 62🐇 6F🐰 2cco%🦝 3eh|se🐎 3I?X🏎 7mot|cycV🏍 2dio📻 5B🔘
  5active☢ bG 2ge😡 2ilway?X🚃 8track🛤 3nbow🌈 7_f~g🏳️‍🌈 3s<N_WfIJs_sp~yed🖐 hpXt^etwe;_middVErI_fIJs🖖
  bs🙌 4I_N🙋 2m🐏 3;🍜 2t🐀 2z|🪒 1eceipt🧾 3|dB⏺ 3ycV♻ 6I_S 2d-hair<m$👨‍🦰 bM👩‍🦰 3_appV🍎 4cX🚗 5ircV🔴
  4;velope🧧 4hair🦰 5eXt❤ 4papJ_l$tJn🏮 4Q🟥 4tri$gV_P<down🔻 lup🔺 2gi%,_:d>at|_a🇦 jb🇧 jc🇨 jd🇩 je🇪 jf🇫
  jg🇬 jh🇭 ji🇮 jj🇯 jk🇰 jl🇱 jm🇲 jn🇳 jo🇴 jp🇵 jq🇶 jr🇷 js🇸 kymbol_VttJ_a🇦 xb🇧 xc🇨 xd🇩 xe🇪 xf🇫 xg🇬 xh🇭 xi🇮
  xj🇯 xk🇰 xl🇱 xm🇲 xn🇳 xo🇴 xp🇵 xq🇶 xr🇷 xs🇸 xt🇹 xu🇺 xv🇻 xw🇼 xx🇽 xy🇾 xz🇿 jt🇹 ju🇺 jv🇻 jw🇼 jx🇽 jy🇾 jz🇿
  4@Jed=® 2~xed☺ 3ieved😌 8F 2m:dJ_ribb%🎗 2peat🔁 6B 7%e🔂 7sIVB 2scue_w|kJ’s_helmet⛑ 3troom🚻 2vJseB◀
  7d_N_WmiddV_fIJ_ext;ded🖕 3olvI_Hs💞 2w:d⏪ 1h:ocJos🦏 1ibb%🎀 2ce🍚 4_L🍙 5crackJ🍘 5sc;e🎑 2ght_$gJ^ubbV🗯
  7rrow➡ b?urvI_down⤵ kVft↩ kup⤴ 2ng💍 4<pl$et🪐 1oa@<sweet_potato🍠 2bot🤖 5F 2cket🚀 2llOpapJ🧻
  4ed-up_newspapJ🗞 6__up_newspapJ 5r?oa@J🎢 4I_%_the_flo|_~ughI🤣 2o@J🐓 2se🌹 4tte🏵 2tatI_lR🚨
  2und_pushp:📍 2wboat🚣 1ugby_footL🏉 2nnJ🏃 4I 7_shirt🎽 d_Wsash aoe👟 0sa🈂 2d^ut_relievedF😥 2fety_p:🧷
  7ve@🦺 2gittXius♐ 2ilboat⛵ 2ke🍶 2lt🧂 2nd,👡 4w>h🥪 3ta🎅 2ri🥻 2tellite📡 9_$t;na 3isfied😆 2uropod🦕
  2xoph%e🎷 1caVs⚖ 3rf🧣 2hool🏫 6^ackpack🎒 7satchel 2iss|s✂ 2|pio♏ 7n🦂 6us♏ 3tZ🏴󠁧󠁢󠁳󠁣󠁴󠁿 2ream😱 6?at🙀
  3oll📜 1eat💺 2cret㊙ 2e-no-evil_m%key🙈 3_no_evil 3dlI🌱 2rv>e_dog🐕‍🦺 2v;=7️⃣ 5-Y🕢 5_C🕖
  1h,low_p$Ofood🥘 3mrock☘ 3rk🦈 3v<>e🍧 2eafOr>e🌾 3ep🐑 3ll🐚 2ield🛡 3nto_shr:e⛩ 3p🚢 3rt👕 3t💩 2oe👞
  3otI_@X🌠 3ppI^ags🛍 9cXt🛒 3rtcake🍰 5s🩳 3wJ🚿 2rimp🦐 2uffV_tracksB🔀 3shIF🤫 1ign,_@r;gth📶 2x=6️⃣ 3-Y🕡
  3_C🕕 4P<@X🔯 1kateboXd🛹 2i🎿 3J⛷ 3s🎿 2ull💀 5Ecrossb%es☠ 3nk🦨 1Vd🛷 3epI😴 8_accommodaT🛌 9face😴 5y😪 6F
  3uth_|_spy🕵 2Rly_frownIF🙁 9smilIF🙂 2ot_mach:e🎰 4h🦥 1m,l_airpl$e🛩 6blue_diam%d🔹 6|$ge_diam%d🔸
  6r<tri$gV🔺 i_down🔻 2iV😄 5?at😸 5y😃 6?at😺 4I?atF_WH-eyes😻 8face☺ c_W3_Hs🥰 ih,o😇 jeXt-eyes😍 j|ns😈
  ismilI_eyes😊 jung~sses😎 8imp😈 3rk😏 5?at😼 5IF😏 2okI🚬 1nail🐌 3ke🐍 2eezIF🤧 2ow-capp<mounta:🏔
  4?app<mounta: 4f~ke❄ 4m$☃ 7_without_snow⛄ 1oap🧼 2b😭 2ccJ⚽ 6_L 3ks🧦 2ft_>e?ream🍦 4L🥎 2%🔜 4A 2s🆘 3B
  2und🔉 1pace_:vadJ👾 3de_suit♠ 5s 3ghetti🍝 3rkV❇ 7r🎇 7s✨ 6I_H💖 2eak-no-evil_m%key🙊 5_no_evil 5J🔈
  7_high_volume🔊 8low_volume🔈 8medium_volume🔉 5I_head🗣 d_:_silhouette 3ech_Lo%💬 4dboat🚤 2idJ🕷 6_web🕸
  3r,?aVndX🗓 f_pad 7note_pad🗒 bpad 7shell🐚 2%ge🧽 3%🥄 3rt_utility_veh>V🚙 5s_med,🏅 3utI_whaV🐳 1quid🦑
  4ntIF_Wt%gue😝 1tadium🏟 3r⭐ 4-@ruck🤩 42🌟 4Ecresc;t☪ 5of_david✡ 4s🌠 3T🚉 4ueOlibJty🗽 2eam_locomotive🚂
  5I^owl🍜 3thoscope🩺 3w🍲 2opB⏹ 5sign🛑 4watch⏱ 2raR_rulJ📏 4wbJry🍓 2uck_out_t%gue😛 g?los<eyes😝
  hw:kI_eye😜 3dio_m>roph%e🎙 3ff<f~tbread🥙 1un☀ 3^eh:d?loud⛅ blXge?loud🌥 bra:?loud🌦 bsm,l?loud🌤
  4withF🌞 3flowJ🌻 3g~sses😎 3ny☀ 3rise🌅 7_ovJ_mounta:s🌄 3set🌇 2pJhJo🦸 5vil~:🦹 2rfJ🏄 2shi🍣
  3p;si%_railway🚟 1w$🦢 2eat😓 5_dropVts💦 as 6smiV😅 3et_potato🍠 2immJ🏊 1ymbols🔣 2nagogue🕍 2rIe💉
  0t-rex🦖 2shirt👕 1abV_t;nis_paddVEL🏓 2co🌮 2da🎉 2keout^ox🥡 2nabata_tree🎋 3gJ:e🍊 2urus♉ 2xi🚕 1ea🍵
  3cup_without_NV 3r-off?aVndX📆 2ddy^eX🧸 2Vph%e☎ 9_receivJ📞 4scope🔭 4visi%📺 2n🔟 3-Y🕥 3_C🕙 3nis🎾 3t⛺
  2@_tube🧪 1hJmometJ🌡 2:kIF🤔 2ought_Lo%💭 2read🧵 4e=3️⃣ 5-Y🕞 5B_mouse🖱 6C🕒 2umbsdown👎 6up👍
  3ndJ?loudEra:⛈ 1>ket🎫 2gJ🐯 52🐅 5F🐯 2mJ?lock⏲ 3|-V@e🇹🇱 2redF😫 1m™ 1oiVt🚽 2kyo_towJ🗼 2mato🍅 2ngue👅
  2olbox🧰 3th🦷 2p🔝 3A 4hat🎩 3hat 2rnado🌪 1rackL🖲 4t|🚜 3deK™ 3ff>_lR🚥 3:🚋 52🚆 3m🚊 4?X🚋 2i$gulX_f~g🚩
  f_%_po@ brulJ📐 3d;t🔱 7_embVm 3umph😤 2olVybus🚎 3phy🏆 4>,_dr:k🍹 9fish🐠 2uck🚚 3mpet🎺 1shirt👕 1ulip🌷
  2mblJ_g~ss🥃 2rkey🦃 3tV🐢 1v📺 1welve-Y🕧 6_C🕛 2i@<rRwXdsAs🔀 2o=2️⃣ 3-hump?amel🐫 4Y🕝 3_Hs💕
  4m;_holdI_Ns👬 4C🕑 4wom;_holdI_Ns👭 0u5272🈹 2408🈴 25b6🈺 16307🈯 2708🈷 49🈶 2e80🈵 17121🈚 2533🈸 2981🈲
  2a7a🈳 1mbrel~☂ 8_%_ground⛱ 9Wra:_drops☔ 1namused😒 8F 2dJage🔞 2>|nF🦄 3t<naTs🇺🇳 2lock🔓 6ed 1p🆙 2!B
  2-downA↕ 3VftA↖ 3rRA↗ 2A⬆ 2side-downF🙃 6__downF 2wXdsB🔼 0v✌ 1Jt>,_traff>_lR🚦 1hs📼 1ibraT_mode📳
  2deo?amJa📹 6game🎮 5cassette📼 2ol:🎻 2rgo♍ 1olc$o🌋 3VyL🏐 1s🆚 2B 0waffV🧇 2Vs🏴󠁧󠁢󠁷󠁬󠁳󠁿 3kI🚶
  2nI?resc;t_mo%🌘 7gibbous_mo%🌖 2rnI⚠ 2@ebasket🗑 2tch⌚ 3J^uff,o🐃 6closet🚾 6wave🌊 5mel%🍉 2ve👋
  3I^~ck_f~g🏴 7white_f~g🏳 3y_dash〰 2xI?resc;t_mo%🌒 7gibbous_mo%🌔 1c🚾 1eXy😩 5?atF🙀 6face😩 2ddI💒
  2R_liftJ🏋 1haV🐳 52🐋 2eelOdhXma☸ 5chair♿ a_S 2ite-hair<m$👨‍🦳 dM👩‍🦳 5?heckK✅ 7ircV⚪ 6exc~maTK❕ 6f~g🏳
  8owJ💮 7rownIF☹ 6hair🦳 7eXt🤍 9vy?heckK✅ 6lXge_Q⬜ 6medium-sm,l_Q◽ c_sm,l_Q equXe◻ etX⭐ 6quesTK❔
  6sm,l_Q▫ 7quXeB🔳 7un^eh:d?loud🌥 m_Wra:🌦 aWsm,l?loud🌤 1ilt<flowJ🥀 2nd^lowIF🌬 5chime🎐 5face🌬
  3e_g~ss🍷 3k😉 4IF c_Wt%gue😜 1olf🐺 4F 2m$_g;ie🧞‍♀️ 6:_m$u,U👩‍🦽 aot|izedU👩‍🦼 6WprobI?$e👩‍🦯
  6zombie🧟‍♀️ 5s?lothes👚 7hat👒 5’s^oot👢 8clothes👚 8hat👒 8s$d,👡 3;_Wbunny_eXs👯‍♀️ 7re@lI🤼‍♀️ 5s🚺
  5’s_room 2ozyF🥴 2rld_map🗺 3ried😟 7F 1rapp<gift🎁 2;ch🔧 0x❌ 0yXn🧶 2wnIF🥱 1ellow?ircV🟡 7H💛 7Q🟨 2n💴
  3^$knote 1:_y$g☯ 1o-yo🪀 1um😋 0z$yF🤪 2p⚡ 1ebra🦓 2ro=0️⃣ 1ippJ-mouthF🤐 6__mouthF 1ombie🧟 1zz💤"

def tones : String :=
  "0_lR_sk:_t%e🏻 1medium-lR_sk:_t%e🏼 7_sk:_t%e🏽 7-dXk_sk:_t%e🏾 1dXk_sk:_t%e🏿"

end AgentConfig.Emoji
